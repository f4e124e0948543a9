import Fodder.Event
import Fodder.Newest

/-!
# Event log

The latest lines, oldest first. A line has room for a fixed number of bytes and is filled piece by
piece; the first piece that does not fit ends it.
-/
namespace Fodder

/-- Writes pieces as long as they fit. -/
def fill (room : Nat) : List String → String
  | [] => ""
  | piece :: rest =>
    if piece.utf8ByteSize ≤ room then piece ++ fill (room - piece.utf8ByteSize) rest else ""

abbrev EventLog := List String

namespace EventLog

def capacity : Nat := 64

/-- Bytes in a line. -/
def lineCapacity : Nat := 96

def line (event : Event) : String := fill lineCapacity event.pieces

def emit (log : EventLog) (event : Event) : EventLog := remember capacity log (line event)

def emitAll (log : EventLog) (events : List Event) : EventLog := events.foldl emit log

end EventLog

end Fodder
