import Fodder.FeedingWindow
import Fodder.RecentFeeds

/-!
# The ration engine

The engine answers whether a collar may eat now, and how much. It counts the feeds of the cow since
the current window opened and compares them with the rations unlocked so far. Decisions change
memory only; the slots that they touch are noted and written later.
-/
namespace Fodder

structure Engine where
  herd : Herd := {}
  settings : Settings := {}
  recent : RecentFeeds := []
  /-- Slots that differ from what is stored, in ascending order. -/
  pending : List Nat := []
  deriving DecidableEq, Repr

/-- Whether a cow is due a ration. -/
inductive Ruling
  /-- A ration is due; the feed happens at this minute. -/
  | due (minute : UInt32)
  | met
  deriving DecidableEq, Repr

/-- Rules on a cow by its feeds and the wall clock, in seconds since the epoch; zero means that the
clock is not set. -/
def Settings.rule (settings : Settings) (feeds : FeedHistory) (now : Nat) :
    Except AllocationError Ruling :=
  if now = 0 then .error .clockNotSet
  else
    match FeedingWindow.containing settings now with
    | .error error => .error error
    | .ok window =>
      let minute := now / 60
      if FeedingWindow.minuteLimit ≤ minute then .error .invalidWindow
      else
        match window.expectedFeeds minute settings.rations.toNat with
        | .error error => .error error
        | .ok expected =>
          if expected ≤ feeds.countSince window.start then .ok .met
          else .ok (.due (UInt32.ofNat minute))

namespace Engine

/-- Adds a slot to those in ascending order. -/
def insertSlot (slot : Nat) : List Nat → List Nat
  | [] => [slot]
  | other :: rest =>
    if slot < other then slot :: other :: rest
    else if slot = other then other :: rest
    else other :: insertSlot slot rest

def hasPending (engine : Engine) : Bool := !engine.pending.isEmpty

def markPending (engine : Engine) (slot : Nat) : Engine :=
  { engine with pending := insertSlot slot engine.pending }

/-- Notes a feed of the cow in a slot. -/
def recordFeed (engine : Engine) (slot : Nat) (name : String) (feed : Feed) : Engine where
  herd := engine.herd.recordFeed slot feed
  settings := engine.settings
  recent := engine.recent.record name feed
  pending := insertSlot slot engine.pending

/-- Decides on a collar at a station, and notes the feed if one is due. -/
def allocate (engine : Engine) (now : Nat) (tag : UInt16) (station : UInt8) :
    Except AllocationError Allocation × Engine :=
  match engine.herd.wearer? tag with
  | none => (.error .unknownTag, engine)
  | some (slot, cow) =>
    match engine.settings.rule cow.feeds now with
    | .error error => (.error error, engine)
    | .ok .met => (.ok .quotaMet, engine)
    | .ok (.due minute) =>
      (.ok (.dispense (cow.ration.share engine.settings.rations)),
        engine.recordFeed slot cow.name ⟨station, minute⟩)

/-- Most feeds that are shown. -/
def recentFeeds (engine : Engine) (limit : Nat) : List RecentFeed :=
  engine.recent.latest (min limit RecentFeeds.capacity)

end Engine

end Fodder
