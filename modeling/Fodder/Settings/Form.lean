import Fodder.Form.Basic
import Fodder.Json
import Fodder.Settings.Basic

/-!
# Schedules as the management page sends and shows them
-/
namespace Fodder.Settings

def formFields : List String := ["reset_offsets", "rations_per_window"]

def byte? (n : Form.Number) : Option UInt8 := (n.nat? 255).map UInt8.ofNat

/-- What the form says, with at most as many hours as a schedule has room for. -/
def ofForm? (form : Form) : Option Settings := do
  match ← form.arrange formFields with
  | [.numbers hours, .number rations] =>
    if maxResets < hours.length then none
    else do
      let resets ← hours.mapM byte?
      let rations ← byte? rations
      pure ⟨resets, rations⟩
  | _ => none

def ofJson (json : String) : Except SettingsError Settings :=
  match (Form.ofString json).bind ofForm? with
  | none => .error .malformed
  | some s =>
    match s.check with
    | .error e => .error e
    | .ok () => .ok s

def json (s : Settings) : String :=
  Json.object
    [("reset_offsets", Json.list (s.resets.map fun hour => toString hour.toNat)),
     ("rations_per_window", toString s.rations.toNat)]

end Fodder.Settings
