import Fodder.Flash.Error

/-!
# Feeding schedule

At which hours of the day a new feeding window opens, and into how many rations the allowance of a
window is split.
-/
namespace Fodder

inductive SettingsError
  | malformed
  | invalid (reason : String)
  | storage (error : StorageError)
  deriving DecidableEq, Repr

def SettingsError.message : SettingsError → String
  | malformed => "malformed settings json"
  | invalid reason => "validation failed: " ++ reason
  | storage error => "storage: " ++ error.message

structure Settings where
  /-- Hours of the day at which a window opens, in ascending order. -/
  resets : List UInt8 := [0]
  rations : UInt8 := 4
  deriving DecidableEq, Repr

namespace Settings

/-- Most windows of a day. -/
def maxResets : Nat := 4

/-- Most rations of a window. -/
def maxRations : Nat := 48

inductive Flaw
  | noReset
  | hour
  | order
  | rations
  deriving DecidableEq, Repr

def Flaw.reason : Flaw → String
  | noReset => "reset_offsets must not be empty"
  | hour => "reset_offsets must be hours 0–23"
  | order => "reset_offsets must be strictly ascending"
  | rations => "rations_per_window must be 1–48"

/-- Each element is less than the next. -/
def ascending : List UInt8 → Bool
  | a :: b :: rest => a < b && ascending (b :: rest)
  | _ => true

/-- The schedule makes sense. -/
structure Valid (s : Settings) : Prop where
  nonempty : s.resets ≠ []
  hours : ∀ hour ∈ s.resets, hour.toNat ≤ 23
  ascending : ascending s.resets = true
  rations : 1 ≤ s.rations.toNat ∧ s.rations.toNat ≤ maxRations

/-- The first flaw of a schedule. -/
def flaw? (s : Settings) : Option Flaw :=
  if s.resets = [] then some .noReset
  else if ¬s.resets.all fun hour => hour.toNat ≤ 23 then some .hour
  else if ¬ascending s.resets then some .order
  else if ¬(1 ≤ s.rations.toNat ∧ s.rations.toNat ≤ maxRations) then some .rations
  else none

theorem flaw?_eq_none_iff (s : Settings) : s.flaw? = none ↔ s.Valid := by
  rw [flaw?]
  constructor
  · intro h
    split at h
    · cases h
    split at h
    · cases h
    split at h
    · cases h
    split at h
    · cases h
    rename_i nonempty hours order rations
    refine ⟨nonempty, ?_, Decidable.not_not.1 order, Decidable.not_not.1 rations⟩
    intro hour member
    exact of_decide_eq_true (List.all_eq_true.1 (Decidable.not_not.1 hours) hour member)
  · rintro ⟨nonempty, hours, order, rations⟩
    have all := List.all_eq_true.2 fun hour member => decide_eq_true (hours hour member)
    rw [if_neg nonempty, if_neg (not_not_intro all), if_neg (not_not_intro order),
      if_neg (not_not_intro rations)]

theorem valid_default : ({} : Settings).Valid := (flaw?_eq_none_iff _).1 (by decide)

/-- A schedule must be free of flaws before it is stored or applied. -/
def check (s : Settings) : Except SettingsError Unit :=
  match s.flaw? with
  | some flaw => .error (.invalid flaw.reason)
  | none => .ok ()

end Settings

end Fodder
