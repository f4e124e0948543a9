import Fodder.Form.Token

/-!
# Management forms

The management page sends a form as a JSON object, or as a list of the same values in the order in
which the form declares them. Its values are texts, numbers and lists of numbers; nothing else, and
no further nesting, occurs in any form.
-/
namespace Fodder

inductive Form.Value
  | text (s : String)
  | number (n : Form.Number)
  | numbers (ns : List Form.Number)
  deriving DecidableEq, Repr

inductive Form
  | named (fields : List (String × Form.Value))
  | positional (values : List Form.Value)
  deriving DecidableEq, Repr

namespace Form

/-- Numbers up to the closing bracket, at least one. -/
def numbers : List Token → Option (List Number × List Token)
  | .number n :: .comma :: rest => (numbers rest).map fun (ns, rest) => (n :: ns, rest)
  | .number n :: .closeList :: rest => some ([n], rest)
  | _ => none

def value : List Token → Option (Value × List Token)
  | .text s :: rest => some (.text s, rest)
  | .number n :: rest => some (.number n, rest)
  | .openList :: .closeList :: rest => some (.numbers [], rest)
  | .openList :: rest => (numbers rest).map fun (ns, rest) => (.numbers ns, rest)
  | _ => none

/-- The fields of an object that ends the text, at least one. -/
def fields : (fuel : Nat) → List Token → Option (List (String × Value))
  | fuel + 1, .text key :: .colon :: rest => do
    match ← value rest with
    | (v, [.closeObject]) => pure [(key, v)]
    | (v, .comma :: rest) => do
      let others ← fields fuel rest
      pure ((key, v) :: others)
    | _ => none
  | _, _ => none

/-- The values of a list that ends the text, at least one. -/
def values : (fuel : Nat) → List Token → Option (List Value)
  | fuel + 1, tokens => do
    match ← value tokens with
    | (v, [.closeList]) => pure [v]
    | (v, .comma :: rest) => do
      let others ← values fuel rest
      pure (v :: others)
    | _ => none
  | 0, _ => none

def ofTokens : List Token → Option Form
  | [.openObject, .closeObject] => some (named [])
  | [.openList, .closeList] => some (positional [])
  | .openObject :: rest => (fields rest.length rest).map named
  | .openList :: rest => (values rest.length rest).map positional
  | _ => none

def ofString (s : String) : Option Form := (Token.ofString s).bind ofTokens

/-- The values of the fields `names`, in their order. A form must have these fields and no others,
each once. -/
def arrange (names : List String) : Form → Option (List Value)
  | positional values => if values.length = names.length then some values else none
  | named fields =>
    if fields.length = names.length then names.mapM (fields.lookup ·) else none

end Form

end Fodder
