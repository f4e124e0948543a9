/-!
# Stations

What the controller remembers about one station from round to round.
-/
namespace Fodder

structure Station where
  /-- Clock reading of the request that led to the latest feed. -/
  lastFeed : Option Nat := none
  /-- Collar of the cow that the latest presence check found, zero if it found none. -/
  present : UInt16 := 0
  deriving DecidableEq, Repr

namespace Station

/-- Whether more than the interval has passed since the latest feed. -/
def intervalElapsed (station : Station) (now : Nat) (intervalMs : UInt32) : Bool :=
  match station.lastFeed with
  | none => true
  | some last => intervalMs.toNat < now - last

/-- Notes a feed. The latest one counts, whatever the order in which feeds are noted. -/
def commitFeed (station : Station) (time : Nat) : Station :=
  { station with lastFeed := some (station.lastFeed.elim time (max time)) }

def markPresent (station : Station) (tag : UInt16) : Station := { station with present := tag }

def clearPresent (station : Station) : Station := { station with present := 0 }

end Station

end Fodder
