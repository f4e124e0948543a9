import Fodder.AckHistory

/-!
# Receiving acknowledgements

An acknowledgement is a start byte and three digits of a collar number. Each byte after the start
takes one digit's place; it counts if it is a digit and the frame is not yet too old. A new start
byte begins the next frame, wherever it comes.
-/
namespace Fodder

inductive SerialError
  /-- A passing disturbance of the line. -/
  | io
  /-- The line is gone. -/
  | closed
  deriving DecidableEq, Repr

def SerialError.message : SerialError → String
  | io => "UART I/O error"
  | closed => "transport closed"

structure Receiver where
  /-- Up to which age of a frame, in milliseconds, its digits count. -/
  timeoutMs : UInt32
  /-- Weights of the digits that are still to come. -/
  awaited : List UInt16 := []
  deriving DecidableEq, Repr

/-- Outcome of a read: a byte with the clock at its arrival, or an error. -/
abbrev Reading := Except SerialError (UInt8 × Nat)

namespace Receiver

def startByte : UInt8 := 0x06

def weights : List UInt16 := [100, 10, 1]

def isDigit (byte : UInt8) : Bool := 0x30 ≤ byte ∧ byte ≤ 0x39

/-- Adds a digit to a frame that is young enough. -/
def credit (timeoutMs : UInt32) (byte : UInt8) (weight : UInt16) (now : Nat) (ack : Ack) : Ack :=
  if now - ack.time ≤ timeoutMs.toNat then
    { ack with tag := ack.tag + (byte - 0x30).toUInt16 * weight }
  else ack

def onByte (receiver : Receiver) (byte : UInt8) (now : Nat) (history : AckHistory) :
    Receiver × AckHistory :=
  if byte = startByte then
    ({ receiver with awaited := weights }, history.push ⟨now, 0⟩)
  else
    match receiver.awaited with
    | [] => (receiver, history)
    | weight :: rest =>
      ({ receiver with awaited := rest },
        if isDigit byte then history.amendNewest (credit receiver.timeoutMs byte weight now)
        else history)

/-- Takes in bytes that arrive every `gap` milliseconds, the first at `now`. -/
def onBytes (receiver : Receiver) (bytes : List UInt8) (now gap : Nat) (history : AckHistory) :
    Receiver × AckHistory :=
  match bytes with
  | [] => (receiver, history)
  | byte :: rest =>
    let (receiver, history) := receiver.onByte byte now history
    receiver.onBytes rest (now + gap) gap history

/-- What is left when the line closes: how many readings were taken, and the acknowledgements. -/
structure Session where
  consumed : Nat
  receiver : Receiver
  history : AckHistory
  deriving DecidableEq, Repr

/-- Reads until the line closes. Disturbances are passed over. -/
def run (receiver : Receiver) (readings : List Reading) (history : AckHistory) : Session :=
  match readings with
  | [] => ⟨0, receiver, history⟩
  | .error .closed :: _ => ⟨1, receiver, history⟩
  | .error .io :: rest =>
    let session := receiver.run rest history
    { session with consumed := session.consumed + 1 }
  | .ok (byte, now) :: rest =>
    let (receiver, history) := receiver.onByte byte now history
    let session := receiver.run rest history
    { session with consumed := session.consumed + 1 }

end Receiver

end Fodder
