import Fodder.Binary.Format

/-!
# Decimals with a fixed number of places

A quotient is rounded to a whole number of the last place, a tie going to the even one, and the
point is set into its digits.
-/
namespace Fodder.Decimal

/-- The digits of a number, filled up with zeros on the left. -/
def padded (width n : Nat) : List Char :=
  (Nat.toDigits 10 n).leftpad width '0'

/-- `num / den` with `places` digits after the point. -/
def fixed (places num den : Nat) : String :=
  let one := Nat.pow 10 places
  let n := Binary.nearest (num * one) den
  String.ofList (Nat.toDigits 10 (n / one) ++ '.' :: padded places (n % one))

end Fodder.Decimal
