/-!
# Binary floating point in exact arithmetic

The non-negative numbers of a binary interchange format are ordered like their encodings, and every
finite one is a whole number of units, the unit being the least positive number. Rounding is
therefore done once, on a quotient of natural numbers, and multiplication and division are that
rounding applied to the exact result.
-/
namespace Fodder.Binary

/-- The natural number nearest to `num / den`; a tie goes to the even neighbour. -/
def nearest (num den : Nat) : Nat :=
  let q := num / den
  let twice := 2 * (num % den)
  if twice < den ∨ (twice = den ∧ q % 2 = 0) then q else q + 1

/-- What a format fixes. Signs are kept apart: encodings here are those of magnitudes. -/
structure Format where
  /-- Significant bits of a normal number, the leading one included. -/
  precision : Nat
  /-- The unit is `2 ^ (-scale)`, the least positive number. -/
  scale : Nat
  /-- The encoding of infinity; those below it are finite, those above it are not numbers. -/
  infinity : Nat
  deriving DecidableEq, Repr

def single : Format := ⟨24, 149, 0x7f800000⟩

def double : Format := ⟨53, 1074, 0x7ff0000000000000⟩

namespace Format

variable (f : Format)

/-- Encodings of one binade. -/
def binade : Nat := Nat.pow 2 (f.precision - 1)

/-- Units in one. -/
def one : Nat := Nat.pow 2 f.scale

/-- Distance, in units, from a finite number to the next larger one. -/
def gap (code : Nat) : Nat := Nat.pow 2 (code / f.binade - 1)

/-- A finite number in units. -/
def units (code : Nat) : Nat :=
  if code < f.binade then code else (f.binade + code % f.binade) * f.gap code

/-- The number nearest to `num / den`, a tie going to the even encoding. A carry out of the
significand moves to the next binade by itself, because encodings are consecutive. -/
def round (num den : Nat) : Nat :=
  let scaled := num * f.one
  let shift := (scaled / den).log2 + 1 - f.precision
  min f.infinity (shift * f.binade + nearest scaled (den * Nat.pow 2 shift))

def ofNat (n : Nat) : Nat := f.round n 1

/-- The rounded product of two finite numbers. -/
def mul (a b : Nat) : Nat := f.round (f.units a * f.units b) (f.one * f.one)

/-- The rounded quotient of two finite numbers, the second not zero. -/
def div (a b : Nat) : Nat := f.round (f.units a) (f.units b)

end Format

end Fodder.Binary
