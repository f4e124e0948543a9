import Fodder.Cow.Blob
import Fodder.Flash.Device
import Fodder.Settings.Blob

/-!
# The stored herd

The place of a cow in the table is the number of its slot; beside the slots stand their count and
the schedule. A change of the count comes before the slots that it drops are erased, so a slot
below the count is never missing on its account. Slots that cannot be read are dropped when the
herd is loaded, and the remaining cows move up.
-/
namespace Fodder.HerdStore

open Storage

def space : String := "herd"

def countKey : String := "count"

def settingsKey : String := "settings"

def slotKey (index : Nat) : String := "c" ++ toString index

/-- Room for a stored schedule. -/
def settingsRoom : Nat := 64

/-- Two bytes, the lower one first. -/
def countBlob (count : Nat) : List UInt8 := [UInt8.ofNat count, UInt8.ofNat (count / 256)]

def countOf : List UInt8 → Except StorageError Nat
  | [low, high] => .ok (low.toNat + 256 * high.toNat)
  | _ => .error .corrupted

def cowOf (blob : List UInt8) : Except StorageError Cow :=
  (Cow.ofBlob? blob).elim (.error .corrupted) .ok

def settingsOf (blob : List UInt8) : Except StorageError Settings :=
  (Settings.ofBlob? blob).elim (.error .corrupted) .ok

variable {φ : Type} [FaultSource φ]

/-- Number of slots in use; none if it was never stored. -/
def count : Storage φ Nat := do
  match ← attempt (read space countKey 2) with
  | .ok blob => ExceptT.mk (pure (countOf blob))
  | .error .notFound => pure 0
  | .error error => throw error

def writeCount (count : Nat) : Storage φ Unit :=
  if UInt16.size ≤ count then throw .full else write space countKey (countBlob count)

def readSlot (index : Nat) : Storage φ Cow := do
  let blob ← read space (slotKey index) Flash.blobCapacity
  ExceptT.mk (pure (cowOf blob))

def save (cow : Cow) (index : Nat) : Storage φ Unit := write space (slotKey index) cow.blob

/-- Erases `slots` slots from `index` on. -/
def eraseSlots (index : Nat) : (slots : Nat) → Storage φ Unit
  | 0 => pure ()
  | slots + 1 => do
    erase space (slotKey index)
    eraseSlots (index + 1) slots

/-- Sets the count and erases the slots from there up to the former count. -/
def truncate (count formerCount : Nat) : Storage φ Unit := do
  writeCount count
  eraseSlots count (formerCount - count)

/-- Sets the count. A former count that cannot be read leaves no slots to erase. -/
def resize (count : Nat) : Storage φ Unit := do
  let former ← attempt HerdStore.count
  truncate count (former.toOption.getD 0)

/-- Saves cows into consecutive slots. -/
def saveFrom (index : Nat) : List Cow → Storage φ Unit
  | [] => pure ()
  | cow :: cows => do
    save cow index
    saveFrom (index + 1) cows

/-- The cows in `slots` slots from `index` on, without those that cannot be read. -/
def readable (index : Nat) : (slots : Nat) → Storage φ (List Cow)
  | 0 => pure []
  | slots + 1 => do
    let slot ← attempt (readSlot index)
    let rest ← readable (index + 1) slots
    pure (slot.toOption.toList ++ rest)

/-- Loads all cows. If slots had to be dropped, the others are stored anew without gaps. -/
def loadAll : Storage φ (List Cow) := do
  let slots ← count
  let cows ← readable 0 slots
  if cows.length ≠ slots then
    saveFrom 0 cows
    truncate cows.length slots
  pure cows

/-- The stored schedule, or the default if none was ever stored. -/
def loadSettings : Storage φ Settings := do
  match ← attempt (read space settingsKey settingsRoom) with
  | .ok blob => ExceptT.mk (pure (settingsOf blob))
  | .error .notFound => pure {}
  | .error error => throw error

def saveSettings (settings : Settings) : Storage φ Unit := write space settingsKey settings.blob

end Fodder.HerdStore
