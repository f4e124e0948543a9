import Fodder.Config.Basic

/-!
# Frames on the station bus

Every request is a short fixed pattern. Those meant for one station carry its address in their
first byte; the terminator tells even stations from odd ones.
-/
namespace Fodder

/-- Requests in the order of a round. -/
inductive Frame
  | groupQuery1
  | groupQuery2
  | presenceQuery
  | feedCommand
  | terminator
  deriving DecidableEq, Repr

namespace Frame

/-- Address of a station; addresses wrap after 255. -/
def address (station : UInt8) : UInt8 := 0x40 + station

def bytes (station : UInt8) : Frame → List UInt8
  | groupQuery1 => [0x60, 0x52, 0x52]
  | groupQuery2 => [0x61, 0x52, 0x52]
  | presenceQuery => [address station, 0x52, 0x34, 0x56]
  | feedCommand => [address station, 0x57, 0x34, 0x56]
  | terminator => [if station % 2 = 0 then 0x01 else 0x11, 0x31, 0x04, 0x35]

/-- Whether the first byte is the address of a station. -/
def isAddressed : Frame → Bool
  | presenceQuery | feedCommand => true
  | groupQuery1 | groupQuery2 | terminator => false

/-- How long the controller waits after a frame. -/
def timeoutMs (c : Config) : Frame → UInt32
  | groupQuery1 => c.groupQuery1TimeoutMs
  | groupQuery2 => c.groupQuery2TimeoutMs
  | presenceQuery => c.presenceTimeoutMs
  | feedCommand => c.feedTimeoutMs
  | terminator => c.terminatorTimeoutMs

end Frame

end Fodder
