import Fodder.Amount

/-!
# Answers to a cow at the trough
-/
namespace Fodder

/-- The answer to a known cow. -/
inductive Allocation
  /-- Dispense this many kilograms now. -/
  | dispense (kg : Amount)
  /-- The cow has had everything that is unlocked so far. -/
  | quotaMet
  deriving DecidableEq, Repr

/-- What is to be dispensed; nothing when the quota is met. -/
def Allocation.kg : Allocation → Amount
  | dispense kg => kg
  | quotaMet => Binary.Single.zero

/-- Why no answer can be given. -/
inductive AllocationError
  /-- No cow wears the collar. -/
  | unknownTag
  /-- The wall clock was not set since power-up. -/
  | clockNotSet
  /-- The instant lies in no feeding window that minutes since the epoch can express. -/
  | invalidWindow
  deriving DecidableEq, Repr

namespace AllocationError

def message : AllocationError → String
  | unknownTag => "no cow with this collar tag"
  | clockNotSet => "wall clock not set"
  | invalidWindow => "invalid feeding window"

def code : AllocationError → Int
  | unknownTag => -1
  | clockNotSet => -2
  | invalidWindow => -2

end AllocationError

end Fodder
