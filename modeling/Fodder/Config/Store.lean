import Fodder.Config.Blob
import Fodder.Flash.Basic

/-!
# The stored configuration
-/
namespace Fodder.Flash

def configSpace : String := "feedstn"

def configKey : String := "syscfg"

/-- The stored configuration, or the default if none was ever stored. -/
def loadConfig (flash : Flash) : Except ConfigError Config :=
  match flash.read configSpace configKey blobCapacity with
  | .error .notFound => .ok {}
  | .error _ => .error .ioError
  | .ok blob =>
    match Config.ofBlob? blob with
    | none => .error .corrupted
    | some config =>
      match config.check with
      | .error error => .error error
      | .ok () => .ok config

/-- Checks a configuration and then writes it. With the answer come the contents as they are left,
also where it is an error. -/
def storeConfig (flash : Flash) (config : Config) : Except ConfigError Unit × Flash :=
  match config.check with
  | .error error => (.error error, flash)
  | .ok () =>
    match flash.write configSpace configKey config.blob with
    | .error _ => (.error .ioError, flash)
    | .ok flash => (.ok (), flash)

/-- The contents with a configuration stored. -/
def saveConfig (flash : Flash) (config : Config) : Except ConfigError Flash :=
  match flash.storeConfig config with
  | (.error error, _) => .error error
  | (.ok (), flash) => .ok flash

end Fodder.Flash
