import Fodder.Plant
import Fodder.Proofs.Course

/-!
# Runs over a failing wire

A frame that cannot be sent is given up, and the round goes on as if it had been sent. So the wire
decides nothing: two runs that find the same clock, the same acknowledgements and the same answers
about rations make the same steps, whatever becomes of their frames, and differ only in the events
that report failed transmissions. Of these a run has one for each frame that it failed to send, with
the station that the frame was for.
-/
namespace Fodder

variable {ρ σ : Type}

/-- Whether an event reports the wire. -/
def Event.isTransmitFailed : Event → Bool
  | .transmitFailed _ => true
  | _ => false

/-- The steps differ at most in what they report of the wire, and in who answers about rations. -/
structure Step.Alike (step : Step ρ) (other : Step σ) : Prop where
  controller : step.controller = other.controller
  wait : step.wait = other.wait
  frame : step.frame = other.frame
  calls : step.calls = other.calls
  events : step.events.filter (!·.isTransmitFailed) = other.events.filter (!·.isTransmitFailed)

/-- What a step for a station tells of the wire. -/
structure Step.Reports (step : Step ρ) (station : UInt8) (wireDown : Bool) : Prop where
  /-- It failed to send its frame, or there is nothing to tell. -/
  failures : step.events.filter (·.isTransmitFailed) =
    if wireDown ∧ step.frame.isSome then [.transmitFailed station] else []
  /-- What is sent is for the station that the events name. -/
  station : ∀ sent ∈ step.frame, sent.2 = station

/-- Two sources answer a question, about a collar at a station, alike. -/
def AnswerAlike [RationSource ρ] [RationSource σ] (rations : ρ) (others : σ)
    (call : UInt16 × UInt8) : Prop :=
  (RationSource.allocate rations call.1 call.2).1 = (RationSource.allocate others call.1 call.2).1

/-- A step finds the same in both turns, but perhaps for the wire, and its questions `calls` are
answered alike. -/
structure Turn.Matches [RationSource ρ] [RationSource σ] (turn : Turn ρ) (other : Turn σ)
    (calls : List (UInt16 × UInt8)) : Prop where
  now : turn.around.now = other.around.now
  newest : turn.around.newest = other.around.newest
  answers : ∀ call ∈ calls, AnswerAlike turn.rations other.rations call

theorem Declines.isTransmitFailed {station : UInt8} {tag : UInt16}
    {answer : Except AllocationError Allocation} {event : Event}
    (h : Declines station tag answer event) : event.isTransmitFailed = false := by
  cases h <;> rfl

theorem Step.filter_flatMap_of_alike {steps : List (Step ρ)} {more : List (Step σ)}
    (h : List.Forall₂ Step.Alike steps more) :
    (steps.flatMap Step.events).filter (!·.isTransmitFailed) =
      (more.flatMap Step.events).filter (!·.isTransmitFailed) := by
  induction h with
  | nil => rfl
  | cons first rest ih => simp only [List.flatMap_cons, List.filter_append, first.events, ih]

namespace Controller

variable {c : Controller}

/-! ## One step -/

theorem filter_send (c : Controller) (frame : Frame) (after : Controller) (wireDown : Bool)
    (rations : ρ) :
    (c.send frame after wireDown rations).events.filter (!·.isTransmitFailed) = [] := by
  cases wireDown <;> rfl

theorem alike_send (c : Controller) (frame : Frame) (after : Controller) (wireDown otherDown : Bool)
    (rations : ρ) (others : σ) :
    (c.send frame after wireDown rations).Alike (c.send frame after otherDown others) where
  controller := rfl
  wait := rfl
  frame := rfl
  calls := rfl
  events := by rw [filter_send, filter_send]

theorem reports_send (c : Controller) (frame : Frame) (after : Controller) (wireDown : Bool)
    (rations : ρ) : (c.send frame after wireDown rations).Reports c.station wireDown where
  failures := by cases wireDown <;> rfl
  station := by simp [send]

theorem alike_dismiss (c : Controller) (state : Station) (events : List Event) (rations : ρ)
    (others : σ) : (c.dismiss state events rations).Alike (c.dismiss state events others) :=
  ⟨rfl, rfl, rfl, rfl, rfl⟩

/-- A step that sends nothing has nothing to report. -/
theorem reports_of_silent {step : Step ρ} (hframe : step.frame = none)
    (hevents : ∀ event ∈ step.events, event.isTransmitFailed = false) (station : UInt8)
    (wireDown : Bool) : step.Reports station wireDown where
  failures := by simpa [hframe] using hevents
  station := by simp [hframe]

variable [RationSource ρ] [RationSource σ]

section Sources

variable {rations : ρ} {others : σ}

theorem alike_consult (state : Station) {tag : UInt16} (requestedAt : Nat)
    (h : AnswerAlike rations others (tag, c.station)) :
    (c.consult state tag requestedAt rations).Alike (c.consult state tag requestedAt others) := by
  unfold AnswerAlike at h
  unfold consult
  generalize RationSource.allocate rations tag c.station = answered at h ⊢
  generalize RationSource.allocate others tag c.station = replied at h ⊢
  obtain ⟨answer, rations⟩ := answered
  obtain ⟨reply, others⟩ := replied
  obtain rfl : answer = reply := h
  match answer with
  | .ok (.dispense kg) =>
    dsimp only
    split_ifs <;> exact ⟨rfl, rfl, rfl, rfl, rfl⟩
  | .ok .quotaMet => exact ⟨rfl, rfl, rfl, rfl, rfl⟩
  | .error reason => exact ⟨rfl, rfl, rfl, rfl, rfl⟩

theorem alike_checkPresence (requestedAt now : Nat) (newest : Option Ack)
    (h : ∀ call ∈ (c.checkPresence requestedAt now newest rations).calls,
      AnswerAlike rations others call) :
    (c.checkPresence requestedAt now newest rations).Alike
      (c.checkPresence requestedAt now newest others) := by
  unfold checkPresence at h ⊢
  cases hstation : c.station? c.station with
  | none => exact ⟨rfl, rfl, rfl, rfl, rfl⟩
  | some state =>
    cases hheard : fresh? newest requestedAt with
    | none => exact c.alike_dismiss _ _ _ _
    | some ack =>
      simp only [hstation, hheard] at h ⊢
      split_ifs at h ⊢ with hempty helapsed
      · exact c.alike_dismiss _ _ _ _
      · rw [consult_calls] at h
        exact alike_consult _ requestedAt (h _ (List.mem_singleton_self _))
      · exact c.alike_dismiss _ _ _ _

end Sources

variable {turn : Turn ρ} {other : Turn σ}

/-- What the wire does decides nothing of a step. -/
theorem alike_step (h : turn.Matches other (c.step turn.around turn.rations).calls) :
    (c.step turn.around turn.rations).Alike (c.step other.around other.rations) := by
  obtain ⟨hnow, hnewest, hanswers⟩ := h
  cases hphase : c.phase with
  | sendGroupQuery1 | sendGroupQuery2 | sendPresenceQuery | sendFeedCommand tag | sendTerminator =>
    simp only [step, hphase, hnow]
    exact c.alike_send _ _ _ _ _ _
  | awaitFeedAck requestedAt tag =>
    simp only [step, hphase, hnewest]
    exact ⟨rfl, rfl, rfl, rfl, rfl⟩
  | awaitPresenceAck requestedAt =>
    simp only [step, hphase, hnow, hnewest] at hanswers ⊢
    exact alike_checkPresence requestedAt _ _ hanswers

/-- A step reports the frame that it failed to send, and no other. -/
theorem reports_step (c : Controller) (around : Surroundings) (rations : ρ) :
    (c.step around rations).Reports c.station around.wireDown := by
  cases hphase : c.phase with
  | sendGroupQuery1 | sendGroupQuery2 | sendPresenceQuery | sendFeedCommand tag | sendTerminator =>
    rw [step, hphase]
    exact c.reports_send _ _ _ _
  | awaitFeedAck requestedAt tag =>
    rw [step, hphase]
    refine reports_of_silent rfl ?_ _ _
    intro event hevent
    obtain rfl := List.mem_singleton.1 hevent
    split_ifs <;> rfl
  | awaitPresenceAck requestedAt =>
    have hchecks := c.checks_step hphase around rations
    generalize c.station? c.station = remembered at hchecks
    generalize c.step around rations = made at hchecks ⊢
    cases hchecks with
    | unknown | noResponse | stationEmpty | intervalPending | served =>
      exact reports_of_silent rfl (by simp [dismiss, Event.isTransmitFailed]) _ _
    | declined asks declines =>
      refine reports_of_silent rfl ?_ _ _
      intro event hevent
      rcases List.mem_pair.1 hevent with rfl | rfl
      · rfl
      · exact declines.isTransmitFailed

/-! ## Runs -/

/-- Two runs of one controller in which every step finds the same and gets the same answers to what
it asks about rations. -/
inductive Matching : Controller → List (Turn ρ) → List (Turn σ) → Prop
  | nil {c : Controller} : Matching c [] []
  | cons {c : Controller} {turn : Turn ρ} {other : Turn σ} {turns : List (Turn ρ)}
      {others : List (Turn σ)}
      (first : turn.Matches other (c.step turn.around turn.rations).calls)
      (rest : Matching (c.step turn.around turn.rations).controller turns others) :
      Matching c (turn :: turns) (other :: others)

/-- The frames of a run that the wire failed to take, each with its station. -/
def failed (c : Controller) (turns : List (Turn ρ)) : List (Frame × UInt8) :=
  (turns.zip (c.steps turns)).filterMap fun (turn, step) =>
    if turn.around.wireDown then step.frame else none

/-- What a run tells of the wire. -/
structure Accounts (c : Controller) (turns : List (Turn ρ)) : Prop where
  /-- Each step reports, under the station of its round, whether it failed to send. -/
  reports : ∀ (k : Nat) (turn : Turn ρ) (step : Step ρ), turns[k]? = some turn →
    (c.steps turns)[k]? = some step → step.Reports (c.before turns k).station turn.around.wireDown
  /-- There is one report for each frame that was not sent. -/
  failures : ((c.steps turns).flatMap Step.events).filter (·.isTransmitFailed) =
    (c.failed turns).map fun sent => .transmitFailed sent.2

variable {turns : List (Turn ρ)} {others : List (Turn σ)}

theorem Matching.steps (h : Matching c turns others) :
    List.Forall₂ Step.Alike (c.steps turns) (c.steps others) := by
  induction h with
  | nil => exact .nil
  | cons first rest ih =>
    have halike := alike_step first
    refine .cons halike ?_
    rw [← halike.controller]
    exact ih

theorem failures_steps (c : Controller) (turns : List (Turn ρ)) :
    ((c.steps turns).flatMap Step.events).filter (·.isTransmitFailed) =
      (c.failed turns).map fun sent => .transmitFailed sent.2 := by
  induction turns generalizing c with
  | nil => rfl
  | cons turn turns ih =>
    have hreports := c.reports_step turn.around turn.rations
    have hrest := ih (c.step turn.around turn.rations).controller
    simp only [steps, failed, List.zip_cons_cons, List.flatMap_cons, List.filter_append] at hrest ⊢
    rw [hreports.failures, hrest, List.filterMap_cons]
    cases hdown : turn.around.wireDown with
    | false => simp
    | true =>
      cases hframe : (c.step turn.around turn.rations).frame with
      | none => simp
      | some sent => simp [hreports.station sent hframe]

theorem accounts (c : Controller) (turns : List (Turn ρ)) : c.Accounts turns where
  reports k turn step hturn hstep := by
    rw [getElem?_steps_of_turn hturn, Option.some.injEq] at hstep
    rw [← hstep]
    exact reports_step _ _ _
  failures := c.failures_steps turns

/-- Two runs of one controller do the same, and either tells of the frames that it failed to send. -/
structure Unswayed (c : Controller) (turns : List (Turn ρ)) (others : List (Turn σ)) : Prop where
  steps : List.Forall₂ Step.Alike (c.steps turns) (c.steps others)
  /-- But for the reports of the wire the runs tell the same. -/
  events : ((c.steps turns).flatMap Step.events).filter (!·.isTransmitFailed) =
    ((c.steps others).flatMap Step.events).filter (!·.isTransmitFailed)
  accounts : c.Accounts turns
  otherAccounts : c.Accounts others

/-- The wire has no influence: runs that differ in it alone go through the same states, wait, send and
ask the same, and tell the same. -/
theorem unswayed_of_matching (h : Matching c turns others) : c.Unswayed turns others where
  steps := h.steps
  events := Step.filter_flatMap_of_alike h.steps
  accounts := c.accounts turns
  otherAccounts := c.accounts others

/-- A cow is fed while no frame gets out: the round of the first station ends as with a sound wire, and
the next frame, for the second station, fails as well. -/
theorem unswayed_brokenWire :
    let heard : Option Ack := some ⟨150, 17⟩
    let turns (wireDown : Bool) : List (Turn Script) := [
      ⟨⟨0, none, wireDown⟩, ⟨[]⟩⟩, ⟨⟨60, none, wireDown⟩, ⟨[]⟩⟩, ⟨⟨120, none, wireDown⟩, ⟨[]⟩⟩,
      ⟨⟨200, heard, wireDown⟩, ⟨[.ok (.dispense ⟨0x3F800000⟩)]⟩⟩, ⟨⟨200, heard, wireDown⟩, ⟨[]⟩⟩,
      ⟨⟨260, heard, wireDown⟩, ⟨[]⟩⟩, ⟨⟨260, heard, wireDown⟩, ⟨[]⟩⟩,
      ⟨⟨330, heard, wireDown⟩, ⟨[]⟩⟩]
    let c := start {}
    Matching c (turns false) (turns true) ∧
      (c.steps (turns false)).flatMap Step.events =
        [.cowPresent 0 17, .dispensing 0 17 ⟨0x3F800000⟩, .feedUnconfirmed 0 17] ∧
      (c.steps (turns true)).flatMap Step.events =
        [.transmitFailed 0, .transmitFailed 0, .transmitFailed 0, .cowPresent 0 17,
          .dispensing 0 17 ⟨0x3F800000⟩, .transmitFailed 0, .feedUnconfirmed 0 17,
          .transmitFailed 0, .transmitFailed 1] ∧
      c.Unswayed (turns false) (turns true) := by
  intro heard turns c
  have hmatching : Matching c (turns false) (turns true) := by
    iterate 8 refine .cons ⟨rfl, rfl, fun _ _ => rfl⟩ ?_
    exact .nil
  exact ⟨hmatching, by decide +kernel, by decide +kernel, unswayed_of_matching hmatching⟩

end Controller

end Fodder
