import Fodder.Newest

/-!
# Feed histories

Each cow carries its latest feeds, oldest first. How many of them lie in the current feeding window
is counted from the newest backwards.
-/
namespace Fodder

/-- One dispensed ration: where, and at which minute since the epoch. -/
structure Feed where
  station : UInt8
  minute : UInt32
  deriving DecidableEq, Repr

/-- The feeds of one cow, oldest first. -/
abbrev FeedHistory := List Feed

namespace FeedHistory

/-- Feeds remembered per cow. -/
def capacity : Nat := 32

def push (history : FeedHistory) (feed : Feed) : FeedHistory := remember capacity history feed

def newestFirst (history : FeedHistory) : List Feed := history.reverse

def latest? (history : FeedHistory) : Option Feed := history.getLast?

/-- Feeds at or after a minute, up to the newest one that is older. -/
def countSince (history : FeedHistory) (minute : Nat) : Nat :=
  (history.newestFirst.takeWhile fun feed => minute ≤ feed.minute.toNat).length

theorem countSince_le_length (history : FeedHistory) (minute : Nat) :
    history.countSince minute ≤ history.length := by
  refine Nat.le_trans (List.takeWhile_sublist _).length_le ?_
  simp [newestFirst]

end FeedHistory

end Fodder
