import Fodder.Allocation
import Fodder.Config.Basic
import Fodder.Herd.Error
import Fodder.Receiver
import Fodder.Settings.Basic

/-!
# Failures of the station

Every part reports failures in its own terms; put together, each is told with the part that it
comes from.
-/
namespace Fodder

inductive StationError
  | allocation (error : AllocationError)
  | herd (error : HerdError)
  | settings (error : SettingsError)
  | storage (error : StorageError)
  | config (error : ConfigError)
  | serial (error : SerialError)
  /-- A part could not be brought up. -/
  | startup (part : String)
  deriving DecidableEq, Repr

def StationError.message : StationError → String
  | allocation error => "allocation: " ++ error.message
  | herd error => "herd: " ++ error.message
  | settings error => "settings: " ++ error.message
  | storage error => "storage: " ++ error.message
  | config error => "config: " ++ error.message
  | serial error => "serial: " ++ error.message
  | startup part => "init: " ++ part

/-- What failed while the bus interface was brought up, with the result code of its driver. -/
inductive BusError
  | parameters (code : Int)
  | pins (code : Int)
  | install (code : Int)
  | mode (code : Int)
  deriving DecidableEq, Repr

def BusError.message : BusError → String
  | parameters code => "uart_param_config failed (rc=" ++ toString code ++ ")"
  | pins code => "uart_set_pin failed (rc=" ++ toString code ++ ")"
  | install code => "uart_driver_install failed (rc=" ++ toString code ++ ")"
  | mode code => "uart_set_mode failed (rc=" ++ toString code ++ ")"

end Fodder
