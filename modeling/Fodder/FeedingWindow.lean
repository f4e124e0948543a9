import Fodder.Allocation
import Fodder.Settings.Basic

/-!
# Feeding windows

The reset hours cut time into windows. Each lasts until the next reset hour, which may be on the
next day, so the hours before the first reset of a day belong to a window of the day before. In
the course of a window its rations are unlocked one after the other, in equal steps.
-/
namespace Fodder

/-- A window by its first minute since the epoch and its length. -/
structure FeedingWindow where
  start : Nat
  hours : Nat
  deriving DecidableEq, Repr

namespace FeedingWindow

/-- Minutes since the epoch are kept in 32 bits. -/
def minuteLimit : Nat := UInt32.size

/-- Each reset hour with the one that ends its window. -/
def spans (resets : List UInt8) : List (UInt8 × UInt8) :=
  resets.zip (resets.drop 1 ++ resets.take 1)

/-- Hours from one reset hour to the next, which is on the following day unless it is later. -/
def lengthHours (opens closes : UInt8) : Nat :=
  if opens < closes then closes.toNat - opens.toNat else closes.toNat + 24 - opens.toNat

/-- The window that opens at an hour of a day, counted from the epoch. -/
def opening (day : Nat) (span : UInt8 × UInt8) : Except AllocationError FeedingWindow :=
  let start := day * 1440 + span.1.toNat * 60
  if 23 < span.1.toNat ∨ minuteLimit ≤ start then .error .invalidWindow
  else .ok ⟨start, lengthHours span.1 span.2⟩

/-- The window that contains an instant, given in seconds since the epoch: the one of the last
reset hour that the day has reached, or else of the last reset hour of the day before. -/
def containing (s : Settings) (now : Nat) : Except AllocationError FeedingWindow :=
  let day := now / 86400
  let hour := now / 3600 % 24
  match ((spans s.resets).filter fun span => span.1.toNat ≤ hour).getLast? with
  | some span => opening day span
  | none =>
    match (spans s.resets).getLast? with
    | some span => if day = 0 then .error .invalidWindow else opening (day - 1) span
    | none => .error .invalidWindow

/-- Rations unlocked at a minute: one at the start and another after each part of the window. -/
def expectedFeeds (window : FeedingWindow) (minute rations : Nat) : Except AllocationError Nat :=
  if rations = 0 ∨ minute < window.start ∨ window.hours = 0 then .error .invalidWindow
  else
    let unlocked := (minute - window.start) * rations / (window.hours * 60) + 1
    if minuteLimit ≤ unlocked then .error .invalidWindow else .ok unlocked

end FeedingWindow

end Fodder
