import Fodder.Blob.Reader
import Fodder.Config.Basic

/-!
# Stored configurations
-/
namespace Fodder.Config

open Blob

def blob (c : Config) : List UInt8 :=
  c.stationCount :: (varint c.minDispenseIntervalMs.toNat ++ (varint c.interByteTimeoutMs.toNat ++
    (varint c.groupQuery1TimeoutMs.toNat ++ (varint c.groupQuery2TimeoutMs.toNat ++
      (varint c.presenceTimeoutMs.toNat ++ (varint c.feedTimeoutMs.toNat ++
        (varint c.terminatorTimeoutMs.toNat ++ varint c.uartBaud.toNat)))))))

def millis : Reader UInt32 := do
  let n ← Reader.varint 32
  pure (UInt32.ofNat n)

def reader : Reader Config := do
  let stationCount ← Reader.byte
  let minDispenseIntervalMs ← millis
  let interByteTimeoutMs ← millis
  let groupQuery1TimeoutMs ← millis
  let groupQuery2TimeoutMs ← millis
  let presenceTimeoutMs ← millis
  let feedTimeoutMs ← millis
  let terminatorTimeoutMs ← millis
  let uartBaud ← millis
  pure ⟨stationCount, minDispenseIntervalMs, interByteTimeoutMs, groupQuery1TimeoutMs,
    groupQuery2TimeoutMs, presenceTimeoutMs, feedTimeoutMs, terminatorTimeoutMs, uartBaud⟩

def ofBlob? (bytes : List UInt8) : Option Config := Reader.front reader bytes

end Fodder.Config
