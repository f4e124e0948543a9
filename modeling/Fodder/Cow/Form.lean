import Fodder.Cow.Basic
import Fodder.Form.Basic
import Fodder.Herd.Error

/-!
# The form of a cow

The management page creates and edits a cow with a form that never carries feeds. Limits of the
stored record are applied first, the flaws of a record after them.
-/
namespace Fodder.Cow

def formFields : List String := ["name", "ear_tag", "collar_tag", "ration_kg", "calving_day"]

/-- What the form says, before any limit is applied. -/
structure Filled where
  name : String
  earTag : String
  collar : Nat
  ration : Amount
  calvingDay : Int64
  deriving DecidableEq, Repr

def Filled.ofJson? (json : String) : Option Filled := do
  let form ← Form.ofString json
  match ← form.arrange formFields with
  | [.text name, .text earTag, .number collar, .number ration, .number day] => do
    let collar ← collar.nat? (UInt32.size - 1)
    let calvingDay ← day.int64?
    pure ⟨name, earTag, collar, ration.single, calvingDay⟩
  | _ => none

/-- The record of a filled form. -/
def Filled.cow (filled : Filled) : Except Flaw Cow :=
  if nameCapacity < filled.name.utf8ByteSize then .error .longName
  else if earTagLength < filled.earTag.utf8ByteSize then .error .earTag
  else if UInt16.size ≤ filled.collar then .error .collar
  else
    let cow : Cow :=
      { name := filled.name, earTag := filled.earTag, collar := UInt16.ofNat filled.collar,
        ration := filled.ration, calvingDay := filled.calvingDay }
    match cow.flaw? with
    | some flaw => .error flaw
    | none => .ok cow

def ofJson (json : String) : Except HerdError Cow :=
  match Filled.ofJson? json with
  | none => .error .malformed
  | some filled =>
    match filled.cow with
    | .error flaw => .error (.invalid flaw.reason)
    | .ok cow => .ok cow

end Fodder.Cow
