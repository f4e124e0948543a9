import Fodder.Blob.Writer

/-!
# Reading stored records

A reader takes what it needs off the front of the bytes and leaves the rest. It fails when the
bytes end too early or do not denote a value of its kind; a number may be padded with empty groups
up to the size that the widest number of its kind takes.
-/
namespace Fodder.Blob

variable {α : Type}

abbrev Reader (α : Type) := StateT (List UInt8) Option α

namespace Reader

def byte : Reader UInt8
  | [] => none
  | b :: rest => some (b, rest)

/-- Groups of seven bits, at most `room` of them. -/
def groups : (room : Nat) → Reader Nat
  | 0, _ => none
  | _ + 1, [] => none
  | room + 1, b :: rest =>
    if b.toNat < 128 then some (b.toNat, rest)
    else (groups room rest).map fun (high, rest) => (b.toNat - 128 + 128 * high, rest)

/-- A number of at most `width` bits. -/
def varint (width : Nat) : Reader Nat := do
  let n ← groups ((width + 6) / 7)
  if n < Nat.pow 2 width then pure n else failure

/-- Undoes `zigzag`. -/
def unzigzag (n : Nat) : Int :=
  if n % 2 = 0 then (n / 2 : Nat) else -(n / 2 : Nat) - 1

def signed : Reader Int64 := do
  let n ← varint 64
  pure (Int64.ofInt (unzigzag n))

def word : Reader UInt32 := do
  let a ← byte
  let b ← byte
  let c ← byte
  let d ← byte
  pure (a.toUInt32 + b.toUInt32 <<< 8 + c.toUInt32 <<< 16 + d.toUInt32 <<< 24)

/-- Exactly `n` bytes. -/
def bytes (n : Nat) : Reader (List UInt8) := fun input =>
  if n ≤ input.length then some (input.take n, input.drop n) else none

def utf8 (bs : List UInt8) : Option String := String.fromUTF8? ⟨bs.toArray⟩

/-- A text of at most `room` bytes. -/
def text (room : Nat) : Reader String := do
  let length ← varint 64
  let s ← utf8 (← bytes length)
  if s.utf8ByteSize ≤ room then pure s else failure

def items (item : Reader α) : Nat → Reader (List α)
  | 0 => pure []
  | n + 1 => do
    let x ← item
    let xs ← items item n
    pure (x :: xs)

/-- A list of at most `room` items. -/
def list (room : Nat) (item : Reader α) : Reader (List α) := do
  let length ← varint 64
  if length ≤ room then items item length else failure

/-- Reads from the front of the bytes; what is left over does not matter. -/
def front (r : Reader α) (input : List UInt8) : Option α := (r input).map Prod.fst

end Reader

end Fodder.Blob
