import Fodder.Binary.Single

/-!
# Numbers in a form

A number without fraction and exponent is an integer while its digits fit 64 bits. Any other is a
double: the leading digits that fit 64 bits are its significand, all further ones only move the
point, and one multiplication or division by a power of ten gives the value. That is not always the
double nearest to what is written, but the same text always has the same value.
-/
namespace Fodder.Form

open Binary

inductive Number
  | natural (n : Nat)
  /-- The integer `-n`, with `n` positive. -/
  | minus (n : Nat)
  /-- A finite double, by sign and encoding of its magnitude. -/
  | real (negative : Bool) (code : Nat)
  deriving DecidableEq, Repr

namespace Number

/-- Takes digits into the significand as long as it stays below `2 ^ 64`. -/
def gather (significand : Nat) : List Char → Nat × List Char
  | [] => (significand, [])
  | d :: ds =>
    let next := significand * 10 + (d.toNat - '0'.toNat)
    if next < UInt64.size then gather next ds else (significand, d :: ds)

def tenTo (n : Nat) : Nat := double.ofNat (Nat.pow 10 n)

/-- Divides `steps` times by the largest power of ten that a double holds. -/
def lower : (steps code : Nat) → Nat
  | 0, code => code
  | steps + 1, code => if code = 0 then 0 else lower steps (double.div code (tenTo 308))

/-- The double for `significand * 10 ^ exponent`, unless it is too large for one. -/
def scaled (significand : Nat) (exponent : Int) : Option Nat :=
  let code := double.ofNat significand
  if 308 < exponent then
    if code = 0 then some 0 else none
  else if 0 ≤ exponent then
    let product := double.mul code (tenTo exponent.toNat)
    if product < double.infinity then some product else none
  else
    let down := exponent.natAbs
    let steps := (down - 1) / 308
    some (double.div (lower steps code) (tenTo (down - 308 * steps)))

/-- How a number is written: `whole`, then perhaps a point and digits, then perhaps an exponent. -/
structure Written where
  negative : Bool
  whole : List Char
  fraction : Option (List Char)
  /-- Whether the exponent is negative, and its digits. -/
  exponent : Option (Bool × List Char)
  deriving DecidableEq, Repr

def sign : List Char → Bool × List Char
  | '-' :: rest => (true, rest)
  | rest => (false, rest)

def fraction : List Char → Option (Option (List Char) × List Char)
  | '.' :: rest =>
    let ds := rest.takeWhile Char.isDigit
    if ds.isEmpty then none else some (some ds, rest.dropWhile Char.isDigit)
  | rest => some (none, rest)

def exponentSign : List Char → Bool × List Char
  | '+' :: rest => (false, rest)
  | '-' :: rest => (true, rest)
  | rest => (false, rest)

def exponent : List Char → Option (Option (Bool × List Char) × List Char)
  | [] => some (none, [])
  | e :: rest =>
    if e = 'e' ∨ e = 'E' then
      let (negative, rest) := exponentSign rest
      let ds := rest.takeWhile Char.isDigit
      if ds.isEmpty then none else some (some (negative, ds), rest.dropWhile Char.isDigit)
    else some (none, e :: rest)

/-- Splits a number into its parts; a leading zero stands alone before the point. -/
def split (cs : List Char) : Option Written := do
  let (negative, cs) := sign cs
  let whole := cs.takeWhile Char.isDigit
  if whole.isEmpty ∨ (whole.head? = some '0' ∧ 1 < whole.length) then none
  let (fraction, cs) ← fraction (cs.dropWhile Char.isDigit)
  let (exponent, cs) ← exponent cs
  if cs.isEmpty then pure ⟨negative, whole, fraction, exponent⟩ else none

/-- The value of a sequence of digits. -/
def value (ds : List Char) : Nat :=
  ds.foldl (fun n d => n * 10 + (d.toNat - '0'.toNat)) 0

/-- Exponents from here on count as infinite. -/
def exponentLimit : Nat := 0x80000000

/-- The encoding of a double with the given exponent part. -/
def withExponent (significand : Nat) (shift : Int) : Option (Bool × List Char) → Option Nat
  | none => scaled significand shift
  | some (negative, ds) =>
    let e := value ds
    if exponentLimit ≤ e then
      if significand ≠ 0 ∧ !negative then none else some 0
    else scaled significand (if negative then shift - e else shift + e)

/-- Integers of 64 bits lie below this limit, and not below its negative. -/
def integerLimit : Nat := 0x8000000000000000

/-- The value of a number; integers that 64 bits do not hold, and a negative zero, are doubles. -/
def ofWritten (w : Written) : Option Number :=
  let (significand, left) := gather 0 w.whole
  match w.fraction with
  | some ds =>
    let (significand, dropped) := gather significand ds
    let shift : Int := left.length - (ds.length - dropped.length : Nat)
    (withExponent significand shift w.exponent).map (.real w.negative)
  | none =>
    if left.isEmpty ∧ w.exponent.isNone then
      if !w.negative then some (.natural significand)
      else if significand = 0 ∨ integerLimit < significand then
        some (.real true (double.ofNat significand))
      else some (.minus significand)
    else (withExponent significand left.length w.exponent).map (.real w.negative)

def read (cs : List Char) : Option Number := (split cs).bind ofWritten

/-- A natural number, if it is one of at most `most`. -/
def nat? (most : Nat) : Number → Option Nat
  | natural n => if n ≤ most then some n else none
  | _ => none

/-- An integer of 64 bits. -/
def int64? : Number → Option Int64
  | natural n => if n < integerLimit then some (Int64.ofNat n) else none
  | minus n => some (Int64.ofInt (-n))
  | real .. => none

/-- The nearest single precision number. -/
def single : Number → Single
  | natural n => Single.ofRatio false n 1
  | minus n => Single.ofRatio true n 1
  | real negative code => Single.ofRatio negative (double.units code) double.one

end Number

end Fodder.Form
