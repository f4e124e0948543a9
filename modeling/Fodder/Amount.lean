import Fodder.Binary.Single
import Fodder.Decimal.Fixed
import Fodder.Decimal.Shortest

/-!
# Amounts of feed

Kilograms of concentrate are single precision numbers. The log shows them with two places, the
management page with as few digits as tell them apart.
-/
namespace Fodder

open Binary

/-- Kilograms of concentrate. -/
abbrev Amount := Single

namespace Amount

def sign (x : Amount) : String := if x.negative then "-" else ""

/-- Two places, as the log shows an amount. -/
def twoPlaces (x : Amount) : String :=
  if x.isNaN then "NaN"
  else if x.isFinite then
    x.sign ++ Decimal.fixed 2 (single.units x.magnitude) single.one
  else x.sign ++ "inf"

/-- Powers of ten of the leading digit between which a decimal is written without exponent. -/
def positional (lead : Int) : Bool := -6 ≤ lead ∧ lead ≤ 12

def zeros (n : Nat) : List Char := List.replicate n '0'

/-- A decimal without exponent keeps at least one digit on either side of the point. -/
def positionalText (ds : List Char) (exponent lead : Int) : List Char :=
  if 0 ≤ exponent then ds ++ zeros exponent.toNat ++ ['.', '0']
  else if 0 ≤ lead then
    ds.take (lead.toNat + 1) ++ '.' :: ds.drop (lead.toNat + 1)
  else '0' :: '.' :: zeros (-lead - 1).toNat ++ ds

/-- One digit before the point, and no point when it is the only one. -/
def scientificText (ds : List Char) (lead : Int) : List Char :=
  let fraction := if ds.length ≤ 1 then [] else '.' :: ds.drop 1
  let sign := if lead < 0 then '-' else '+'
  ds.take 1 ++ fraction ++ 'e' :: sign :: Nat.toDigits 10 lead.natAbs

def decimalText (d : Decimal) : String :=
  let ds := Nat.toDigits 10 d.digits
  let lead := d.exponent + ds.length - 1
  String.ofList (if positional lead then positionalText ds d.exponent lead
    else scientificText ds lead)

/-- The form in which an amount stands in JSON; what is not finite has none. -/
def json (x : Amount) : String :=
  if x.magnitude = 0 then x.sign ++ "0.0"
  else if x.isFinite then
    (Decimal.shortest single 39 86 x.magnitude).elim "null" fun d => x.sign ++ decimalText d
  else "null"

end Amount

end Fodder
