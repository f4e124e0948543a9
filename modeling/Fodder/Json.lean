/-!
# Writing JSON

Views for the management page are written without blanks. Quotes, backslashes and control
characters are escaped, everything else stands as it is.
-/
namespace Fodder.Json

def hexDigits (n : Nat) : List Char := [Nat.digitChar (n / 16), Nat.digitChar (n % 16)]

def escape (c : Char) : List Char :=
  match c with
  | '"' => ['\\', '"']
  | '\\' => ['\\', '\\']
  | '\x08' => ['\\', 'b']
  | '\x0c' => ['\\', 'f']
  | '\n' => ['\\', 'n']
  | '\r' => ['\\', 'r']
  | '\t' => ['\\', 't']
  | c => if c.toNat < 0x20 then ['\\', 'u', '0', '0'] ++ hexDigits c.toNat else [c]

def text (s : String) : String := String.ofList ('"' :: s.toList.flatMap escape ++ ['"'])

def list (items : List String) : String := "[" ++ ",".intercalate items ++ "]"

/-- An object with the given fields, whose values are already written. -/
def object (fields : List (String × String)) : String :=
  "\x7b" ++ ",".intercalate (fields.map fun (key, value) => text key ++ ":" ++ value) ++ "\x7d"

end Fodder.Json
