import Fodder.Amount
import Fodder.FeedHistory

/-!
# Cows

What the station knows about one animal. A record enters the herd only when it has none of the
flaws listed here; they are looked for in the order of the list.
-/
namespace Fodder

structure Cow where
  name : String
  earTag : String
  /-- The number that the collar reports. -/
  collar : UInt16
  /-- Kilograms per feeding window, given out in equal rations. -/
  ration : Amount
  /-- Day of calving, in seconds since the epoch; zero when it was never set. -/
  calvingDay : Int64
  feeds : FeedHistory := []
  deriving DecidableEq, Repr

namespace Cow

/-- Longest name, in bytes. -/
def nameCapacity : Nat := 32

def earTagLength : Nat := 12

/-- Highest number that a collar reports. -/
def maxCollar : Nat := 999

inductive Flaw
  | unnamed
  | longName
  | earTag
  | collar
  | ration
  | calvingDay
  deriving DecidableEq, Repr

def Flaw.reason : Flaw → String
  | unnamed => "name must not be empty"
  | longName => "name longer than 32 bytes"
  | earTag => "ear_tag must be 12 digits"
  | collar => "collar_tag must be 1–999"
  | ration => "ration_kg must be positive"
  | calvingDay => "calving_day must be set"

/-- Strings and history are within the room that a stored record gives them. -/
structure Fits (cow : Cow) : Prop where
  name : cow.name.utf8ByteSize ≤ nameCapacity
  earTag : cow.earTag.utf8ByteSize ≤ earTagLength
  feeds : cow.feeds.length ≤ FeedHistory.capacity

/-- The fields make sense. -/
structure Valid (cow : Cow) : Prop where
  name : cow.name ≠ ""
  earTagLength : cow.earTag.length = earTagLength
  earTagDigits : cow.earTag.toList.all Char.isDigit
  collar : 1 ≤ cow.collar.toNat ∧ cow.collar.toNat ≤ maxCollar
  ration : cow.ration.isFinite ∧ cow.ration.isPositive
  calvingDay : cow.calvingDay ≠ 0

/-- The first flaw of a record. -/
def flaw? (cow : Cow) : Option Flaw :=
  if cow.name = "" then some .unnamed
  else if ¬(cow.earTag.length = earTagLength ∧ cow.earTag.toList.all Char.isDigit) then
    some .earTag
  else if ¬(1 ≤ cow.collar.toNat ∧ cow.collar.toNat ≤ maxCollar) then some .collar
  else if ¬(cow.ration.isFinite ∧ cow.ration.isPositive) then some .ration
  else if cow.calvingDay = 0 then some .calvingDay
  else none

theorem flaw?_eq_none_iff (cow : Cow) : cow.flaw? = none ↔ cow.Valid := by
  rw [flaw?]
  constructor
  · intro h
    split at h
    · cases h
    split at h
    · cases h
    split at h
    · cases h
    split at h
    · cases h
    split at h
    · cases h
    rename_i name earTag collar ration day
    obtain ⟨length, digits⟩ := Decidable.not_not.1 earTag
    exact ⟨name, length, digits, Decidable.not_not.1 collar, Decidable.not_not.1 ration, day⟩
  · rintro ⟨name, length, digits, collar, ration, day⟩
    rw [if_neg name, if_neg (not_not_intro ⟨length, digits⟩), if_neg (not_not_intro collar),
      if_neg (not_not_intro ration), if_neg day]

end Cow

end Fodder
