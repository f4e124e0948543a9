import Fodder.Binary.Format

/-!
# The shortest decimal of a binary number

All real numbers of an interval around a finite binary number are rounded to it. The decimals
`n * 10 ^ k` form a grid for every `k`; on the coarsest grid that meets the interval the point
nearest to the number has the fewest digits of all decimals that read back as that number.
-/
namespace Fodder

open Binary

/-- The positive number `digits * 10 ^ exponent`. -/
structure Decimal where
  digits : Nat
  exponent : Int
  deriving DecidableEq, Repr

namespace Decimal

/-- The numbers that are rounded to `middle`, all three in quarters of a unit. The ends belong to
the interval exactly when the encoding is even, because ties go there. -/
structure Interval where
  low : Nat
  middle : Nat
  high : Nat
  closed : Bool
  deriving DecidableEq, Repr

/-- Below the least number of a binade the neighbours stand twice as close. -/
def interval (f : Format) (code : Nat) : Interval :=
  let middle := 4 * f.units code
  let gap := f.gap code
  let below := if code % f.binade = 0 ∧ 2 * f.binade ≤ code then gap else 2 * gap
  ⟨middle - below, middle, middle + 2 * gap, code % 2 = 0⟩

/-- The point of the grid of `10 ^ k` that is in the interval and nearest to its middle. -/
def onGrid (f : Format) (i : Interval) (k : Int) : Option Decimal :=
  let scaled (n : Nat) := n * Nat.pow 10 (-k).toNat
  let step := Nat.pow 2 (f.scale + 2) * Nat.pow 10 k.toNat
  let inside (n : Nat) : Bool :=
    if i.closed then scaled i.low ≤ n * step ∧ n * step ≤ scaled i.high
    else scaled i.low < n * step ∧ n * step < scaled i.high
  let floor := scaled i.middle / step
  match inside floor, inside (floor + 1) with
  | true, true => some ⟨nearest (scaled i.middle) step, k⟩
  | true, false => some ⟨floor, k⟩
  | false, true => some ⟨floor + 1, k⟩
  | false, false => none

/-- Searches the grids from `10 ^ top` down, `grids` of them. -/
def shortest (f : Format) (top : Int) (grids code : Nat) : Option Decimal :=
  (List.range grids).findSome? fun (i : Nat) => onGrid f (interval f code) (top - i)

end Decimal

end Fodder
