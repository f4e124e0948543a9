import Fodder.Cow.Basic
import Fodder.Herd.Error

/-!
# The herd

A table of cows in which every name and every collar occurs once. The place of a cow in the table
is also the number of its slot in the store, so a cow that leaves is replaced by the last one and
no other cow moves.
-/
namespace Fodder

structure Herd where
  cows : List Cow := []
  deriving DecidableEq, Repr

namespace Herd

def capacity : Nat := 100

variable (herd : Herd)

def size : Nat := herd.cows.length

def names : List String := herd.cows.map Cow.name

def position? (name : String) : Option Nat := herd.cows.findIdx? (·.name = name)

def get? (name : String) : Option Cow := herd.cows.find? (·.name = name)

def at? (index : Nat) : Option Cow := herd.cows[index]?

/-- The cow that wears a collar, with its place. -/
def wearer? (tag : UInt16) : Option (Nat × Cow) := do
  let index ← herd.cows.findIdx? (·.collar = tag)
  let cow ← herd.cows[index]?
  pure (index, cow)

/-- Puts a cow into the place of another, if there is one. -/
def putBack (index : Nat) (cow : Cow) : Herd := ⟨herd.cows.set index cow⟩

/-- Appends a feed to the history of the cow at a place. -/
def recordFeed (index : Nat) (feed : Feed) : Herd :=
  ⟨herd.cows.modify index fun cow => { cow with feeds := cow.feeds.push feed }⟩

/-- Whether a stored record may follow those already taken over. -/
def accepts (cow : Cow) : Bool :=
  herd.size < capacity && cow.flaw?.isNone && (herd.position? cow.name).isNone &&
    !herd.cows.any (·.collar = cow.collar)

def enrol (cow : Cow) : Herd := if herd.accepts cow then ⟨herd.cows ++ [cow]⟩ else herd

/-- The herd of the stored records. Of two that clash the earlier one stays. -/
def ofRecords (records : List Cow) : Herd := records.foldl enrol {}

/-- How many of the stored records are left out of the herd. -/
def leftOut (records : List Cow) : Nat := records.length - (ofRecords records).size

/-- Where a cow was put, and whether it is new to the herd. -/
structure Placed where
  herd : Herd
  index : Nat
  created : Bool
  deriving DecidableEq, Repr

/-- Whether a cow at another place than `place` wears the collar. -/
def wornElsewhere (tag : UInt16) (place : Option Nat) : Bool :=
  herd.cows.zipIdx.any fun (cow, index) => cow.collar = tag ∧ some index ≠ place

/-- The feeds that an edited cow has afterwards: an edit without feeds does not reset its quota. -/
def feedsAfter (index : Nat) (cow : Cow) : FeedHistory :=
  if cow.feeds.isEmpty then (herd.cows[index]?.map Cow.feeds).getD [] else cow.feeds

/-- Creates a cow at the end of the table or edits the one of that name in its place. -/
def upsert (cow : Cow) : Except HerdError Placed :=
  match cow.flaw? with
  | some flaw => .error (.invalid flaw.reason)
  | none =>
    let existing := herd.position? cow.name
    if herd.wornElsewhere cow.collar existing then .error (.duplicateCollar cow.collar)
    else
      match existing with
      | some index =>
        .ok ⟨herd.putBack index { cow with feeds := herd.feedsAfter index cow }, index, false⟩
      | none =>
        if capacity ≤ herd.size then .error .full
        else .ok ⟨⟨herd.cows ++ [cow]⟩, herd.size, true⟩

/-- The place that a removed cow left, and whether the last cow moved there. -/
structure Vacated where
  index : Nat
  movedLast : Bool
  deriving DecidableEq, Repr

/-- Drops the last cow after moving it to a place; the last place itself takes no one. -/
def fillFromEnd (index : Nat) : Herd :=
  match herd.cows.getLast? with
  | none => herd
  | some last => ⟨herd.cows.dropLast.set index last⟩

def remove (name : String) : Except HerdError (Herd × Vacated) :=
  match herd.position? name with
  | none => .error .notFound
  | some index => .ok (herd.fillFromEnd index, ⟨index, index ≠ herd.size - 1⟩)

/-- Undoes `remove`: the cow gets its place back, and the one that moved there goes to the end. -/
def restore (vacated : Vacated) (cow : Cow) : Herd :=
  match herd.at? vacated.index with
  | some moved =>
    if vacated.movedLast then ⟨herd.cows.set vacated.index cow ++ [moved]⟩
    else ⟨herd.cows ++ [cow]⟩
  | none => ⟨herd.cows ++ [cow]⟩

end Herd

end Fodder
