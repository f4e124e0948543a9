import Fodder.AckHistory
import Fodder.Event
import Fodder.Frame
import Fodder.Station

/-!
# The controller of the stations

Stations are served in turn, one round after the other. A round asks the group twice, asks the
station who is there, perhaps commands a feed, and ends with the terminator, which no failure leaves
out. Each step does one thing and says how long to wait before the next; frames are never resent.
A feed counts as given once it is decided, whether or not the station acknowledges the command.
-/
namespace Fodder

/-- Whoever decides about rations, called with a collar and a station. -/
class RationSource (ρ : Type) where
  allocate : ρ → UInt16 → UInt8 → Except AllocationError Allocation × ρ

/-- Position within a round. -/
inductive Phase
  | sendGroupQuery1
  | sendGroupQuery2
  | sendPresenceQuery
  | awaitPresenceAck (requestedAt : Nat)
  | sendFeedCommand (tag : UInt16)
  | awaitFeedAck (requestedAt : Nat) (tag : UInt16)
  | sendTerminator
  deriving DecidableEq, Repr

structure Controller where
  config : Config
  phase : Phase := .sendGroupQuery1
  /-- The station that the round is for. -/
  station : UInt8 := 0
  stations : List Station := List.replicate Config.maxStations {}
  deriving DecidableEq, Repr

/-- What a step finds: the monotonic clock, the newest acknowledgement, and whether the wire is
down. -/
structure Surroundings where
  now : Nat
  newest : Option Ack
  wireDown : Bool
  deriving DecidableEq, Repr

/-- What a step does. -/
structure Step (ρ : Type) where
  controller : Controller
  rations : ρ
  /-- Milliseconds to wait before the next step. -/
  wait : UInt32 := 0
  /-- The frame that the step tried to send, and the station that it was for. -/
  frame : Option (Frame × UInt8) := none
  events : List Event := []
  /-- Calls of the ration source. -/
  calls : List (UInt16 × UInt8) := []

/-- The newest acknowledgement, if it arrived after the request. -/
def fresh? (newest : Option Ack) (requestedAt : Nat) : Option Ack :=
  newest.filter fun ack => requestedAt < ack.time

namespace Controller

/-- Starts at the first station; the number of stations is brought into its range. -/
def start (config : Config) : Controller :=
  { config := { config with stationCount := max 1 (min 4 config.stationCount) } }

def started (c : Controller) : Event := .started c.config.stationCount

def station? (c : Controller) (station : UInt8) : Option Station := c.stations[station.toNat]?

def setStation (c : Controller) (state : Station) : Controller :=
  { c with stations := c.stations.set c.station.toNat state }

def inPhase (c : Controller) (phase : Phase) : Controller := { c with phase }

/-- The controller when the round of its station is over. -/
def nextRound (c : Controller) : Controller :=
  { c with phase := .sendGroupQuery1, station := (c.station + 1) % c.config.stationCount }

variable {ρ : Type}

/-- Tries to send a frame and goes on as `after` whether or not that works. -/
def send (c : Controller) (frame : Frame) (after : Controller) (wireDown : Bool) (rations : ρ) :
    Step ρ where
  controller := after
  rations := rations
  wait := frame.timeoutMs c.config
  frame := some (frame, c.station)
  events := if wireDown then [.transmitFailed c.station] else []

/-- Ends the round without a feed. -/
def dismiss (c : Controller) (state : Station) (events : List Event) (rations : ρ) : Step ρ where
  controller := (c.setStation state).inPhase .sendTerminator
  rations := rations
  events := events

variable [RationSource ρ]

/-- Asks for the ration of a cow that is there, and decides whether to feed. -/
def consult (c : Controller) (state : Station) (tag : UInt16) (requestedAt : Nat) (rations : ρ) :
    Step ρ :=
  let (answer, rations) := RationSource.allocate rations tag c.station
  let refuse (event : Event) : Step ρ :=
    { c.dismiss state [.cowPresent c.station tag, event] rations with calls := [(tag, c.station)] }
  match answer with
  | .ok (.dispense kg) =>
    if kg.isPositive then
      { controller := (c.setStation (state.commitFeed requestedAt)).inPhase (.sendFeedCommand tag)
        rations := rations
        events := [.cowPresent c.station tag, .dispensing c.station tag kg]
        calls := [(tag, c.station)] }
    else refuse (.quotaMet c.station tag)
  | .ok .quotaMet => refuse (.quotaMet c.station tag)
  | .error reason => refuse (.allocationRefused c.station tag reason)

/-- Evaluates the answer to the presence query. -/
def checkPresence (c : Controller) (requestedAt now : Nat) (newest : Option Ack) (rations : ρ) :
    Step ρ :=
  match c.station? c.station with
  | none => { controller := c.inPhase .sendTerminator, rations }
  | some state =>
    match fresh? newest requestedAt with
    | none => c.dismiss state.clearPresent [.noResponse c.station] rations
    | some ack =>
      if ack.tag = 0 then c.dismiss state.clearPresent [.stationEmpty c.station] rations
      else
        let state := state.markPresent ack.tag
        if state.intervalElapsed now c.config.minDispenseIntervalMs then
          c.consult state ack.tag requestedAt rations
        else
          c.dismiss state
            [.cowPresent c.station ack.tag, .intervalPending c.station ack.tag] rations

/-- Performs one action. -/
def step (c : Controller) (around : Surroundings) (rations : ρ) : Step ρ :=
  match c.phase with
  | .sendGroupQuery1 => c.send .groupQuery1 (c.inPhase .sendGroupQuery2) around.wireDown rations
  | .sendGroupQuery2 => c.send .groupQuery2 (c.inPhase .sendPresenceQuery) around.wireDown rations
  | .sendPresenceQuery =>
    c.send .presenceQuery (c.inPhase (.awaitPresenceAck around.now)) around.wireDown rations
  | .awaitPresenceAck requestedAt => c.checkPresence requestedAt around.now around.newest rations
  | .sendFeedCommand tag =>
    c.send .feedCommand (c.inPhase (.awaitFeedAck around.now tag)) around.wireDown rations
  | .awaitFeedAck requestedAt tag =>
    { controller := c.inPhase .sendTerminator
      rations := rations
      events := [if (fresh? around.newest requestedAt).isSome then .feedConfirmed c.station tag
        else .feedUnconfirmed c.station tag] }
  | .sendTerminator => c.send .terminator c.nextRound around.wireDown rations

end Controller

end Fodder
