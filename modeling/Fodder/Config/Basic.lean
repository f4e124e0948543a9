/-!
# System configuration

Number of stations and timings of the bus. Configurations are checked before they are stored and
after they are loaded.
-/
namespace Fodder

inductive ConfigError
  | corrupted
  | invalid (reason : String)
  | ioError
  deriving DecidableEq, Repr

def ConfigError.message : ConfigError → String
  | corrupted => "config corrupted"
  | invalid reason => "validation failed: " ++ reason
  | ioError => "I/O error"

structure Config where
  /-- Stations polled in turn. -/
  stationCount : UInt8 := 4
  /-- Least time between two feeds at one station. -/
  minDispenseIntervalMs : UInt32 := 600000
  /-- Up to which age of a frame its digits are taken. -/
  interByteTimeoutMs : UInt32 := 8
  groupQuery1TimeoutMs : UInt32 := 60
  groupQuery2TimeoutMs : UInt32 := 60
  presenceTimeoutMs : UInt32 := 80
  feedTimeoutMs : UInt32 := 60
  terminatorTimeoutMs : UInt32 := 70
  uartBaud : UInt32 := 1200
  deriving DecidableEq, Repr

namespace Config

/-- Most stations on the bus. -/
def maxStations : Nat := 4

inductive Flaw
  | stationCount
  | interByteTimeout
  | frameTimeout
  | dispenseInterval
  | baud
  deriving DecidableEq, Repr

def Flaw.reason : Flaw → String
  | stationCount => "station_count must be 1–4"
  | interByteTimeout => "inter_byte_timeout_ms must be 1–100"
  | frameTimeout => "frame timeouts must be 10–1000 ms"
  | dispenseInterval => "min_dispense_interval_ms must be at most one day"
  | baud => "uart_baud must be 300–115200"

variable (c : Config)

/-- Waits after the frames of a round. -/
def frameTimeouts : List UInt32 :=
  [c.groupQuery1TimeoutMs, c.groupQuery2TimeoutMs, c.presenceTimeoutMs, c.feedTimeoutMs,
    c.terminatorTimeoutMs]

/-- All values are in their ranges. -/
structure Valid : Prop where
  stationCount : 1 ≤ c.stationCount.toNat ∧ c.stationCount.toNat ≤ maxStations
  interByteTimeout : 1 ≤ c.interByteTimeoutMs.toNat ∧ c.interByteTimeoutMs.toNat ≤ 100
  frameTimeouts : ∀ t ∈ c.frameTimeouts, 10 ≤ t.toNat ∧ t.toNat ≤ 1000
  dispenseInterval : c.minDispenseIntervalMs.toNat ≤ 86400000
  baud : 300 ≤ c.uartBaud.toNat ∧ c.uartBaud.toNat ≤ 115200

/-- The first value out of its range. -/
def flaw? : Option Flaw :=
  if ¬(1 ≤ c.stationCount.toNat ∧ c.stationCount.toNat ≤ maxStations) then some .stationCount
  else if ¬(1 ≤ c.interByteTimeoutMs.toNat ∧ c.interByteTimeoutMs.toNat ≤ 100) then
    some .interByteTimeout
  else if ¬c.frameTimeouts.all fun t => 10 ≤ t.toNat ∧ t.toNat ≤ 1000 then some .frameTimeout
  else if ¬c.minDispenseIntervalMs.toNat ≤ 86400000 then some .dispenseInterval
  else if ¬(300 ≤ c.uartBaud.toNat ∧ c.uartBaud.toNat ≤ 115200) then some .baud
  else none

theorem flaw?_eq_none_iff : c.flaw? = none ↔ c.Valid := by
  rw [flaw?]
  constructor
  · intro h
    split at h
    · cases h
    split at h
    · cases h
    split at h
    · cases h
    split at h
    · cases h
    split at h
    · cases h
    rename_i stations bytes frames interval baud
    refine ⟨Decidable.not_not.1 stations, Decidable.not_not.1 bytes, ?_,
      Decidable.not_not.1 interval, Decidable.not_not.1 baud⟩
    intro t ht
    exact of_decide_eq_true (List.all_eq_true.1 (Decidable.not_not.1 frames) t ht)
  · rintro ⟨stations, bytes, frames, interval, baud⟩
    have all := List.all_eq_true.2 fun t ht => decide_eq_true (frames t ht)
    rw [if_neg (not_not_intro stations), if_neg (not_not_intro bytes),
      if_neg (not_not_intro all), if_neg (not_not_intro interval), if_neg (not_not_intro baud)]

theorem valid_default : ({} : Config).Valid := (flaw?_eq_none_iff _).1 (by decide)

def check : Except ConfigError Unit :=
  match c.flaw? with
  | some flaw => .error (.invalid flaw.reason)
  | none => .ok ()

/-- Duration of a round in which nobody eats. -/
def idleRoundMs : Nat :=
  c.groupQuery1TimeoutMs.toNat + c.groupQuery2TimeoutMs.toNat + c.presenceTimeoutMs.toNat +
    c.terminatorTimeoutMs.toNat

end Config

end Fodder
