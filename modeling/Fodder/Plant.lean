import Fodder.Controller
import Fodder.EventLog
import Fodder.Receiver
import Fodder.Steward

/-!
# The whole station plant

Controller, receiver and ration engine work on one bus and two clocks: the monotonic clock times
frames, the wall clock tells feeding windows. Bytes reach the receiver at any time between steps of
the controller, and both clocks move only between them.
-/
namespace Fodder

/-- The engine at a reading of the wall clock. -/
structure Desk where
  engine : Engine
  wall : Nat
  deriving DecidableEq, Repr

instance : RationSource Desk where
  allocate desk tag station :=
    let (answer, engine) := desk.engine.allocate desk.wall tag station
    (answer, { desk with engine })

/-- Answers fixed in advance; once they are used up, every quota is met. -/
structure Script where
  answers : List (Except AllocationError Allocation)

instance : RationSource Script where
  allocate script _ _ :=
    match script.answers with
    | [] => (.ok .quotaMet, script)
    | answer :: answers => (answer, ⟨answers⟩)

structure Plant (φ : Type) where
  steward : Steward φ
  controller : Controller
  receiver : Receiver
  acks : AckHistory := []
  log : EventLog := []
  /-- The wall clock, in seconds since the epoch; zero while it is not set. -/
  wall : Nat
  /-- The monotonic clock, in milliseconds. -/
  clock : Nat
  wireDown : Bool := false
  /-- Answers that the controller gets in place of the engine's. -/
  script : Option Script := none

/-- Bytes on their way to the receiver: the first arrives `delay` after the present reading of the
clock, each further one `gap` later. -/
structure Transmission where
  bytes : List UInt8
  delay : Nat := 20
  gap : Nat := 1
  deriving DecidableEq, Repr

namespace Plant

variable {φ : Type} [FaultSource φ]

/-- A plant that starts from what a device holds. -/
def start (device : Device φ) (config : Config) (wall clock : Nat) (script : Option Script) :
    Plant φ where
  steward := Steward.boot device
  controller := Controller.start config
  receiver := { timeoutMs := config.interByteTimeoutMs }
  wall := wall
  clock := clock
  script := script

/-- Starts the engine anew from the device. -/
def reboot (plant : Plant φ) : Plant φ :=
  { plant with steward := Steward.boot plant.steward.device }

omit [FaultSource φ]

def hear (sent : Transmission) (plant : Plant φ) : Plant φ :=
  let (receiver, acks) :=
    plant.receiver.onBytes sent.bytes (plant.clock + sent.delay) sent.gap plant.acks
  { plant with receiver, acks }

def around (plant : Plant φ) : Surroundings where
  now := plant.clock
  newest := plant.acks.newest?
  wireDown := plant.wireDown

/-- What can be observed of a step. -/
structure Observed where
  wait : UInt32
  frame : Option (List UInt8)
  events : List Event
  calls : List (UInt16 × UInt8)
  deriving DecidableEq, Repr

/-- The observation of a step; a frame is seen only when the wire took it. -/
def observe {ρ : Type} (wireDown : Bool) (step : Step ρ) : Observed where
  wait := step.wait
  frame := if wireDown then none else step.frame.map fun (frame, station) => frame.bytes station
  events := step.events
  calls := step.calls

/-- One step of the controller. Neither clock moves. -/
def act (plant : Plant φ) : Observed × Plant φ :=
  match plant.script with
  | some script =>
    let step := plant.controller.step plant.around script
    (observe plant.wireDown step,
      { plant with
        controller := step.controller
        script := some step.rations
        log := plant.log.emitAll step.events })
  | none =>
    let step := plant.controller.step plant.around (⟨plant.steward.engine, plant.wall⟩ : Desk)
    (observe plant.wireDown step,
      { plant with
        controller := step.controller
        steward := { plant.steward with engine := step.rations.engine }
        log := plant.log.emitAll step.events })

/-- A step, what is heard while the controller waits, and the wait. -/
def step (heard : Option Transmission) (plant : Plant φ) : Observed × Plant φ :=
  let (observed, plant) := plant.act
  let plant := heard.elim plant (hear · plant)
  (observed, { plant with clock := plant.clock + observed.wait.toNat })

/-- Steps until the controller is in a wanted phase, at most `limit` times. Each observation comes
with the controller after the step. -/
def stepUntil (wanted : Phase → Bool) (heard : Option Transmission) :
    (limit : Nat) → Plant φ → List (Observed × Controller) × Plant φ
  | 0, plant => ([], plant)
  | limit + 1, plant =>
    if wanted plant.controller.phase then ([], plant)
    else
      let (observed, plant) := plant.step heard
      let (others, last) := stepUntil wanted heard limit plant
      ((observed, plant.controller) :: others, last)

/-- Announces the controller. -/
def announce (plant : Plant φ) : Event × Plant φ :=
  let event := plant.controller.started
  (event, { plant with log := plant.log.emit event })

/-- Decides on a collar by the engine, whatever the script says. -/
def allocate (plant : Plant φ) (tag : UInt16) (station : UInt8) :
    Except AllocationError Allocation × Plant φ :=
  let (answer, engine) := plant.steward.engine.allocate plant.wall tag station
  (answer, { plant with steward := { plant.steward with engine } })

end Plant

end Fodder
