/-!
# Stored records

Records are stored as byte strings without field names: numbers in groups of seven bits, lowest
first, texts and lists behind their length, fractions as their four bytes.
-/
namespace Fodder.Blob

/-- Groups of seven bits, lowest first. Every byte but the last has its high bit set; at most
`more` bytes precede the last. -/
def groups : (more n : Nat) → List UInt8
  | 0, n => [UInt8.ofNat n]
  | more + 1, n =>
    if n < 128 then [UInt8.ofNat n] else UInt8.ofNat (n % 128 + 128) :: groups more (n / 128)

/-- A number below `2 ^ 64`, in as few bytes as it takes. -/
def varint (n : Nat) : List UInt8 := groups 9 n

/-- Signed numbers are interleaved with unsigned ones: 0, -1, 1, -2, 2 and so on. -/
def zigzag (n : Int) : Nat :=
  if 0 ≤ n then 2 * n.toNat else 2 * (-n - 1).toNat + 1

def signed (n : Int64) : List UInt8 := varint (zigzag n.toInt)

/-- Four bytes, lowest first. -/
def word (w : UInt32) : List UInt8 :=
  [w.toUInt8, (w >>> 8).toUInt8, (w >>> 16).toUInt8, (w >>> 24).toUInt8]

def utf8 (s : String) : List UInt8 := s.toByteArray.data.toList

def text (s : String) : List UInt8 := varint (utf8 s).length ++ utf8 s

variable {α : Type}

def list (item : α → List UInt8) (items : List α) : List UInt8 :=
  varint items.length ++ items.flatMap item

end Fodder.Blob
