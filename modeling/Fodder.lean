import Fodder.Config.Store
import Fodder.Plant
import Fodder.StationError
import Fodder.Proofs.Blob.Extent
import Fodder.Proofs.Decision
import Fodder.Proofs.Decoding
import Fodder.Proofs.EventLog
import Fodder.Proofs.Feeding
import Fodder.Proofs.FeedingWindow.Unlocking
import Fodder.Proofs.Herd.Table
import Fodder.Proofs.Steward.Cleared
import Fodder.Proofs.Steward.Compacted
import Fodder.Proofs.Steward.Refusals
import Fodder.Proofs.Steward.Schedule
import Fodder.Proofs.Steward.View
import Fodder.Proofs.Unbounded
import Fodder.Proofs.Wire
