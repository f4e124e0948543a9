import Fodder.Form.Number
import Fodder.Form.Text

/-!
# Tokens of a form

Blanks between tokens have no meaning. A number extends over all the characters that can occur in
one, since nothing that may follow a number can.
-/
namespace Fodder.Form

inductive Token
  | openObject
  | closeObject
  | openList
  | closeList
  | colon
  | comma
  | text (s : String)
  | number (n : Number)
  deriving DecidableEq, Repr

namespace Token

def isBlank (c : Char) : Bool := c = ' ' ∨ c = '\t' ∨ c = '\n' ∨ c = '\r'

def mark? : Char → Option Token
  | '{' => some openObject
  | '}' => some closeObject
  | '[' => some openList
  | ']' => some closeList
  | ':' => some colon
  | ',' => some comma
  | _ => none

def inNumber (c : Char) : Bool :=
  c.isDigit ∨ c = '-' ∨ c = '+' ∨ c = '.' ∨ c = 'e' ∨ c = 'E'

/-- The first token and what follows it, in a text that starts with `c`. -/
def first (c : Char) (rest : List Char) : Option (Token × List Char) :=
  match mark? c with
  | some mark => some (mark, rest)
  | none =>
    if c = '"' then (quoted rest).map fun (s, rest) => (text s, rest)
    else
      (Number.read (c :: rest.takeWhile inNumber)).map fun n =>
        (number n, rest.dropWhile inNumber)

/-- Every token takes at least one character, so the length of the text is fuel enough. -/
def scan : (fuel : Nat) → List Char → Option (List Token)
  | _, [] => some []
  | 0, _ => none
  | fuel + 1, c :: rest =>
    if isBlank c then scan fuel rest
    else do
      let (token, rest) ← first c rest
      let tokens ← scan fuel rest
      pure (token :: tokens)

def ofString (s : String) : Option (List Token) := scan s.toList.length s.toList

end Token

end Fodder.Form
