import Fodder.Blob.Reader
import Fodder.Cow.Basic

/-!
# Stored cows

A cow is stored as the number of the layout followed by its fields in order. Bytes after the record
are ignored, so a blob may be longer than the record that it holds.
-/
namespace Fodder

open Blob

def Feed.blob (feed : Feed) : List UInt8 := feed.station :: varint feed.minute.toNat

def Feed.reader : Reader Feed := do
  let station ← Reader.byte
  let minute ← Reader.varint 32
  pure ⟨station, UInt32.ofNat minute⟩

namespace Cow

/-- Number of the present layout. -/
def layout : UInt8 := 1

def fields (cow : Cow) : List UInt8 :=
  text cow.name ++ (text cow.earTag ++ (varint cow.collar.toNat ++ (word cow.ration.bits ++
    (signed cow.calvingDay ++ list Feed.blob cow.feeds))))

def blob (cow : Cow) : List UInt8 := layout :: cow.fields

def reader : Reader Cow := do
  let name ← Reader.text nameCapacity
  let earTag ← Reader.text earTagLength
  let collar ← Reader.varint 16
  let ration ← Reader.word
  let calvingDay ← Reader.signed
  let feeds ← Reader.list FeedHistory.capacity Feed.reader
  pure { name, earTag, collar := UInt16.ofNat collar, ration := ⟨ration⟩, calvingDay, feeds }

def ofBlob? : List UInt8 → Option Cow
  | version :: fields => if version = layout then Reader.front reader fields else none
  | [] => none

end Cow

end Fodder
