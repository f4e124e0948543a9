import Fodder.Blob.Reader
import Fodder.Settings.Basic

/-!
# Stored schedules
-/
namespace Fodder.Settings

open Blob

/-- Number of the present layout. -/
def layout : UInt8 := 1

def fields (s : Settings) : List UInt8 := list (fun hour => [hour]) s.resets ++ [s.rations]

def blob (s : Settings) : List UInt8 := layout :: s.fields

def reader : Reader Settings := do
  let resets ← Reader.list maxResets Reader.byte
  let rations ← Reader.byte
  pure ⟨resets, rations⟩

def ofBlob? : List UInt8 → Option Settings
  | version :: fields => if version = layout then Reader.front reader fields else none
  | [] => none

end Fodder.Settings
