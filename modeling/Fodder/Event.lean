import Fodder.Allocation

/-!
# Events

The controller never fails; it tells what happened by events, each with a severity and a line of
text.
-/
namespace Fodder

inductive Event
  | started (stations : UInt8)
  | cowPresent (station : UInt8) (tag : UInt16)
  | stationEmpty (station : UInt8)
  | noResponse (station : UInt8)
  /-- The station fed too recently. -/
  | intervalPending (station : UInt8) (tag : UInt16)
  | dispensing (station : UInt8) (tag : UInt16) (kg : Amount)
  | feedConfirmed (station : UInt8) (tag : UInt16)
  | feedUnconfirmed (station : UInt8) (tag : UInt16)
  | quotaMet (station : UInt8) (tag : UInt16)
  | allocationRefused (station : UInt8) (tag : UInt16) (reason : AllocationError)
  | transmitFailed (station : UInt8)
  deriving DecidableEq, Repr

inductive Level
  | error
  | warn
  | info
  | debug
  deriving DecidableEq, Repr

namespace Event

def level : Event → Level
  | started .. | dispensing .. | feedConfirmed .. => .info
  | cowPresent .. | stationEmpty .. | intervalPending .. | quotaMet .. => .debug
  | noResponse .. | feedUnconfirmed .. | transmitFailed .. => .warn
  | allocationRefused _ _ .unknownTag | allocationRefused _ _ .invalidWindow => .error
  | allocationRefused _ _ .clockNotSet => .info

def atStation (station : UInt8) : List String := ["STN ", toString station.toNat, " | "]

def withCollar (station : UInt8) (tag : UInt16) : List String :=
  atStation station ++ ["collar ", toString tag.toNat]

/-- The pieces of text that make up the line of an event. -/
def pieces : Event → List String
  | started stations => ["START | ", toString stations.toNat, " stations"]
  | cowPresent station tag => withCollar station tag ++ [" present"]
  | stationEmpty station => atStation station ++ ["empty"]
  | noResponse station => atStation station ++ ["no response"]
  | intervalPending station tag => withCollar station tag ++ [" fed too recently"]
  | dispensing station tag kg => withCollar station tag ++ [" dispensing ", kg.twoPlaces, " kg"]
  | feedConfirmed station tag => withCollar station tag ++ [" feed confirmed"]
  | feedUnconfirmed station tag => withCollar station tag ++ [" feed not acknowledged"]
  | quotaMet station tag => withCollar station tag ++ [" quota met"]
  | allocationRefused station tag reason =>
    withCollar station tag ++ [" refused: ", reason.message, " (", toString reason.code, ")"]
  | transmitFailed station => atStation station ++ ["transmit failed"]

end Event

end Fodder
