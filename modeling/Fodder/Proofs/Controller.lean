import Fodder.Controller
import Mathlib.Tactic

/-!
# What a step of the controller does

Only the evaluation of a presence query can ask for a ration, and only for a collar that was heard
after the query at a station whose interval has passed. Every other step leaves the rations alone
and tells of no feed.
-/
namespace Fodder

variable {ρ : Type}

/-- A step that asks for no ration. -/
structure Step.Quiet (step : Step ρ) (rations : ρ) : Prop where
  rations : step.rations = rations
  calls : step.calls = []
  events : ∀ (station : UInt8) (tag : UInt16) (kg : Amount), .dispensing station tag kg ∉ step.events
  phase : ∀ tag, step.controller.phase ≠ .sendFeedCommand tag

/-- What is told of a cow that gets nothing, by the answer that was given for it. -/
inductive Declines (station : UInt8) (tag : UInt16) :
    Except AllocationError Allocation → Event → Prop
  /-- Too little to be dispensed counts as nothing. -/
  | quotaMet {allocation : Allocation}
      (nothing : ∀ kg, allocation = .dispense kg → kg.isPositive = false) :
      Declines station tag (.ok allocation) (.quotaMet station tag)
  | refused {reason : AllocationError} :
      Declines station tag (.error reason) (.allocationRefused station tag reason)

section Declines

variable {station : UInt8} {tag : UInt16} {answer : Except AllocationError Allocation} {event : Event}

theorem Declines.nothing (h : Declines station tag answer event) (kg : Amount)
    (hanswer : answer = .ok (.dispense kg)) : kg.isPositive = false := by
  cases h with
  | quotaMet nothing => exact nothing kg (Except.ok.inj hanswer)
  | refused => cases hanswer

theorem Declines.ne_dispensing (h : Declines station tag answer event) (other : UInt8) (collar : UInt16)
    (kg : Amount) : event ≠ .dispensing other collar kg := by
  cases h with
  | quotaMet | refused => simp

end Declines

namespace Controller

variable (c : Controller)

theorem quiet_send (frame : Frame) {after : Controller} (wireDown : Bool) (rations : ρ)
    (hafter : ∀ tag, after.phase ≠ .sendFeedCommand tag) :
    (c.send frame after wireDown rations).Quiet rations where
  rations := rfl
  calls := rfl
  events station tag kg h := by
    unfold send at h
    dsimp only at h
    split_ifs at h <;> simp at h
  phase := hafter

theorem quiet_dismiss (state : Station) {events : List Event} (rations : ρ)
    (hevents : ∀ (station : UInt8) (tag : UInt16) (kg : Amount),
      .dispensing station tag kg ∉ events) :
    (c.dismiss state events rations).Quiet rations where
  rations := rfl
  calls := rfl
  events := hevents
  phase tag h := by cases h

/-- A step that finds a cow to ask about, at a station that `state` is known of. -/
structure Asks (around : Surroundings) (state : Station) (tag : UInt16) (requestedAt : Nat) :
    Prop where
  phase : c.phase = .awaitPresenceAck requestedAt
  station : c.station? c.station = some state
  heard : ∃ time, fresh? around.newest requestedAt = some ⟨time, tag⟩
  present : tag ≠ 0
  elapsed : state.intervalElapsed around.now c.config.minDispenseIntervalMs = true

variable [RationSource ρ] {around : Surroundings} {state : Station} {tag : UInt16} {requestedAt : Nat}

theorem step_of_asks (h : c.Asks around state tag requestedAt) (rations : ρ) :
    c.step around rations = c.consult (state.markPresent tag) tag requestedAt rations := by
  obtain ⟨time, hheard⟩ := h.heard
  have helapsed : (state.markPresent tag).intervalElapsed around.now
      c.config.minDispenseIntervalMs = true := h.elapsed
  rw [step, h.phase]
  simp only [checkPresence, h.station, hheard, if_neg h.present, helapsed, if_true]

theorem consult_rations (state : Station) (tag : UInt16) (requestedAt : Nat) (rations : ρ) :
    (c.consult state tag requestedAt rations).rations =
      (RationSource.allocate rations tag c.station).2 := by
  unfold consult
  dsimp only
  split
  · split_ifs <;> rfl
  · rfl
  · rfl

theorem consult_calls (state : Station) (tag : UInt16) (requestedAt : Nat) (rations : ρ) :
    (c.consult state tag requestedAt rations).calls = [(tag, c.station)] := by
  unfold consult
  dsimp only
  split
  · split_ifs <;> rfl
  · rfl
  · rfl

/-- A ration of more than nothing is served; any other answer is a reason to decline. -/
theorem consult_serves_or_declines (state : Station) (tag : UInt16) (requestedAt : Nat) (rations : ρ) :
    (∃ kg, (RationSource.allocate rations tag c.station).1 = .ok (.dispense kg) ∧
        kg.isPositive = true ∧
        c.consult state tag requestedAt rations =
          { controller := (c.setStation (state.commitFeed requestedAt)).inPhase (.sendFeedCommand tag)
            rations := (RationSource.allocate rations tag c.station).2
            events := [.cowPresent c.station tag, .dispensing c.station tag kg]
            calls := [(tag, c.station)] }) ∨
      ∃ event, Declines c.station tag (RationSource.allocate rations tag c.station).1 event ∧
        c.consult state tag requestedAt rations =
          { c.dismiss state [.cowPresent c.station tag, event]
              (RationSource.allocate rations tag c.station).2 with
            calls := [(tag, c.station)] } := by
  unfold consult
  rcases RationSource.allocate rations tag c.station with ⟨answer, after⟩
  dsimp only
  match answer with
  | .ok (.dispense kg) =>
    dsimp only
    split_ifs with hpositive
    · exact .inl ⟨kg, rfl, hpositive, rfl⟩
    · refine .inr ⟨.quotaMet c.station tag, .quotaMet fun other hother => ?_, rfl⟩
      cases hother
      simpa using hpositive
  | .ok .quotaMet => exact .inr ⟨.quotaMet c.station tag, .quotaMet (by simp), rfl⟩
  | .error reason => exact .inr ⟨.allocationRefused c.station tag reason, .refused, rfl⟩

/-- A ration of more than nothing is dispensed; with any other answer the round ends. -/
theorem consult_cases (state : Station) (tag : UInt16) (requestedAt : Nat) (rations : ρ) :
    (∃ kg, (RationSource.allocate rations tag c.station).1 = .ok (.dispense kg) ∧
        kg.isPositive = true ∧
        c.consult state tag requestedAt rations =
          { controller := (c.setStation (state.commitFeed requestedAt)).inPhase (.sendFeedCommand tag)
            rations := (RationSource.allocate rations tag c.station).2
            events := [.cowPresent c.station tag, .dispensing c.station tag kg]
            calls := [(tag, c.station)] }) ∨
      ((∀ kg, (RationSource.allocate rations tag c.station).1 = .ok (.dispense kg) →
          kg.isPositive = false) ∧
        ∃ event, (∀ station tag kg, event ≠ .dispensing station tag kg) ∧
          c.consult state tag requestedAt rations =
            { c.dismiss state [.cowPresent c.station tag, event]
                (RationSource.allocate rations tag c.station).2 with
              calls := [(tag, c.station)] }) := by
  rcases c.consult_serves_or_declines state tag requestedAt rations with
    hserves | ⟨event, hdeclines, hstep⟩
  · exact .inl hserves
  · exact .inr ⟨hdeclines.nothing, event, hdeclines.ne_dispensing, hstep⟩

/-- Everything that the evaluation of a presence query can come to, by what is remembered of the
station. -/
inductive Checks (around : Surroundings) (rations : ρ) (requestedAt : Nat) :
    Option Station → Step ρ → Prop
  | unknown : Checks around rations requestedAt none
      { controller := c.inPhase .sendTerminator, rations }
  | noResponse {state : Station} (unheard : fresh? around.newest requestedAt = none) :
      Checks around rations requestedAt (some state)
        (c.dismiss state.clearPresent [.noResponse c.station] rations)
  | stationEmpty {state : Station} {time : Nat}
      (heard : fresh? around.newest requestedAt = some ⟨time, 0⟩) :
      Checks around rations requestedAt (some state)
        (c.dismiss state.clearPresent [.stationEmpty c.station] rations)
  | intervalPending {state : Station} {time : Nat} {tag : UInt16}
      (heard : fresh? around.newest requestedAt = some ⟨time, tag⟩) (present : tag ≠ 0)
      (early : state.intervalElapsed around.now c.config.minDispenseIntervalMs = false) :
      Checks around rations requestedAt (some state)
        (c.dismiss (state.markPresent tag)
          [.cowPresent c.station tag, .intervalPending c.station tag] rations)
  | declined {state : Station} {tag : UInt16} {event : Event}
      (asks : c.Asks around state tag requestedAt)
      (declines : Declines c.station tag (RationSource.allocate rations tag c.station).1 event) :
      Checks around rations requestedAt (some state)
        { c.dismiss (state.markPresent tag) [.cowPresent c.station tag, event]
            (RationSource.allocate rations tag c.station).2 with
          calls := [(tag, c.station)] }
  | served {state : Station} {tag : UInt16} {kg : Amount}
      (asks : c.Asks around state tag requestedAt)
      (answer : (RationSource.allocate rations tag c.station).1 = .ok (.dispense kg))
      (positive : kg.isPositive = true) :
      Checks around rations requestedAt (some state)
        { controller := (c.setStation ((state.markPresent tag).commitFeed requestedAt)).inPhase
            (.sendFeedCommand tag)
          rations := (RationSource.allocate rations tag c.station).2
          events := [.cowPresent c.station tag, .dispensing c.station tag kg]
          calls := [(tag, c.station)] }

theorem checks_step (hphase : c.phase = .awaitPresenceAck requestedAt) (around : Surroundings)
    (rations : ρ) :
    c.Checks around rations requestedAt (c.station? c.station) (c.step around rations) := by
  have hstep : c.step around rations =
      c.checkPresence requestedAt around.now around.newest rations := by rw [step, hphase]
  rw [hstep, checkPresence]
  cases hstation : c.station? c.station with
  | none => exact .unknown
  | some state =>
    cases hheard : fresh? around.newest requestedAt with
    | none => exact .noResponse hheard
    | some ack =>
      obtain ⟨time, tag⟩ := ack
      dsimp only
      split_ifs with hempty helapsed
      · subst hempty
        exact .stationEmpty hheard
      · have hasks : c.Asks around state tag requestedAt :=
          ⟨hphase, hstation, ⟨time, hheard⟩, hempty, helapsed⟩
        rcases c.consult_serves_or_declines (state.markPresent tag) tag requestedAt rations with
          ⟨kg, hanswer, hpositive, hserved⟩ | ⟨event, hdeclines, hdeclined⟩
        · rw [hserved]
          exact .served hasks hanswer hpositive
        · rw [hdeclined]
          exact .declined hasks hdeclines
      · exact .intervalPending hheard hempty (Bool.eq_false_iff.2 helapsed)

/-- A step asks about a cow or is quiet. -/
theorem step_cases (around : Surroundings) (rations : ρ) :
    (c.step around rations).Quiet rations ∨
      ∃ state tag requestedAt, c.Asks around state tag requestedAt := by
  cases hphase : c.phase with
  | sendGroupQuery1 | sendGroupQuery2 | sendPresenceQuery | sendFeedCommand tag
  | sendTerminator =>
    left
    rw [step, hphase]
    exact c.quiet_send _ _ _ (by simp [inPhase, nextRound])
  | awaitFeedAck requestedAt tag =>
    left
    rw [step, hphase]
    refine ⟨rfl, rfl, ?_, ?_⟩
    · intro station tag kg h
      dsimp only at h
      split_ifs at h <;> simp at h
    · simp [inPhase]
  | awaitPresenceAck requestedAt =>
    have hchecks := c.checks_step hphase around rations
    generalize c.station? c.station = remembered at hchecks
    generalize c.step around rations = made at hchecks ⊢
    cases hchecks with
    | unknown => exact .inl ⟨rfl, rfl, by simp, by simp [inPhase]⟩
    | noResponse | stationEmpty | intervalPending => exact .inl (c.quiet_dismiss _ _ (by simp))
    | declined asks | served asks => exact .inr ⟨_, _, requestedAt, asks⟩

/-- A step allocates once for a collar at its station or leaves the rations alone. -/
theorem rations_step (around : Surroundings) (rations : ρ) :
    (c.step around rations).rations = rations ∨
      ∃ tag, (c.step around rations).rations = (RationSource.allocate rations tag c.station).2 := by
  rcases c.step_cases around rations with hquiet | ⟨state, tag, requestedAt, hasks⟩
  · exact .inl hquiet.rations
  · right
    refine ⟨tag, ?_⟩
    rw [step_of_asks c hasks, consult_rations]

end Controller

end Fodder
