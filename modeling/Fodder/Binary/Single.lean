import Fodder.Binary.Format

/-!
# Single precision numbers

A number is its 32 bits, so two numbers are equal exactly when they are stored alike: zeros of
either sign differ, and so do the values that are not numbers.
-/
namespace Fodder.Binary

structure Single where
  bits : UInt32
  deriving DecidableEq, Repr, Inhabited

namespace Single

/-- Weight of the sign in an encoding. -/
def signBit : Nat := 0x80000000

def negative (x : Single) : Bool := signBit ≤ x.bits.toNat

/-- The encoding without its sign. -/
def magnitude (x : Single) : Nat := x.bits.toNat % signBit

def ofMagnitude (negative : Bool) (code : Nat) : Single :=
  ⟨UInt32.ofNat (if negative then signBit + code else code)⟩

def zero : Single := ⟨0⟩

def nan : Single := ⟨0x7fc00000⟩

def isNaN (x : Single) : Bool := single.infinity < x.magnitude

def isFinite (x : Single) : Bool := x.magnitude < single.infinity

/-- Greater than zero; infinity is, what is not a number is not. -/
def isPositive (x : Single) : Bool :=
  !x.negative && decide (0 < x.magnitude) && !x.isNaN

/-- The number nearest to `num / den` with the given sign. -/
def ofRatio (negative : Bool) (num den : Nat) : Single :=
  ofMagnitude negative (single.round num den)

/-- The quotient by a small whole number, which single precision holds exactly. -/
def share (x : Single) (parts : UInt8) : Single :=
  if x.isNaN then x
  else if parts = 0 then
    if x.magnitude = 0 then nan else ofMagnitude x.negative single.infinity
  else if x.isFinite then
    ofRatio x.negative (single.units x.magnitude) (single.one * parts.toNat)
  else x

end Single

end Fodder.Binary
