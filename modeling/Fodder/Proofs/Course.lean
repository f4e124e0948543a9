import Fodder.Proofs.Controller

/-!
# Runs of the controller

A run takes turns, one for each step. Nothing ties the turns together: the clock may go back,
acknowledgements come and go as they will, the wire is up or down, and whoever decides about rations
may be another one each time. So whatever is said of all runs holds for every way in which the rest
of the plant can behave.
-/
namespace Fodder

/-- What a step is given. -/
structure Turn (ρ : Type) where
  around : Surroundings
  rations : ρ

variable {ρ : Type}

/-! ## Evaluating the presence query -/

/-- A step that evaluates the answer to the presence query and ends the round without a feed. -/
structure Step.Dismisses (step : Step ρ) (c : Controller) : Prop where
  frame : step.frame = none
  wait : step.wait = 0
  events : ∀ (station : UInt8) (tag : UInt16) (kg : Amount), .dispensing station tag kg ∉ step.events
  /-- The station's latest feed stays what it was. -/
  controller : ∃ state, (∀ old, c.station? c.station = some old → state.lastFeed = old.lastFeed) ∧
    step.controller = (c.setStation state).inPhase .sendTerminator

/-- A step that evaluates the answer to the presence query and decides to feed. -/
structure Step.Serves (step : Step ρ) (c : Controller) (state : Station) (tag : UInt16)
    (requestedAt : Nat) : Prop where
  frame : step.frame = none
  wait : step.wait = 0
  events : ∃ kg, step.events = [.cowPresent c.station tag, .dispensing c.station tag kg]
  controller : step.controller =
    (c.setStation (state.commitFeed requestedAt)).inPhase (.sendFeedCommand tag)

namespace Controller

variable {c : Controller} {old : Station} {events : List Event}

theorem dismisses_dismiss (state : Station) (hold : c.station? c.station = some old)
    (hlast : state.lastFeed = old.lastFeed)
    (hevents : ∀ (station : UInt8) (tag : UInt16) (kg : Amount), .dispensing station tag kg ∉ events)
    (rations : ρ) : (c.dismiss state events rations).Dismisses c where
  frame := rfl
  wait := rfl
  events := hevents
  controller := by
    refine ⟨state, ?_, rfl⟩
    intro other hother
    obtain rfl := Option.some.inj (hold.symm.trans hother)
    exact hlast

variable [RationSource ρ]

/-- The evaluation of a presence query ends the round, or a cow was asked about and is fed. -/
theorem step_of_awaitPresenceAck {requestedAt : Nat} (hphase : c.phase = .awaitPresenceAck requestedAt)
    (around : Surroundings) (rations : ρ) :
    (c.step around rations).Dismisses c ∨
      ∃ state tag, c.Asks around state tag requestedAt ∧
        (c.step around rations).Serves c (state.markPresent tag) tag requestedAt := by
  have hchecks := c.checks_step hphase around rations
  generalize hstation : c.station? c.station = remembered at hchecks
  generalize c.step around rations = made at hchecks ⊢
  cases hchecks with
  | unknown =>
    left
    have hlength : c.stations.length ≤ c.station.toNat := List.getElem?_eq_none_iff.1 hstation
    refine ⟨rfl, rfl, by simp, {}, by simp [hstation], ?_⟩
    rw [setStation, List.set_eq_of_length_le hlength]
  | noResponse | stationEmpty | intervalPending =>
    left
    refine dismisses_dismiss _ hstation ?_ ?_ rations
    · rfl
    · simp
  | @declined state tag event asks declines =>
    left
    have hquiet : ∀ (station : UInt8) (other : UInt16) (kg : Amount),
        .dispensing station other kg ∉ [.cowPresent c.station tag, event] := by
      simp [(declines.ne_dispensing _ _ _).symm]
    have hends := dismisses_dismiss (state.markPresent tag) hstation rfl hquiet
      (RationSource.allocate rations tag c.station).2
    exact ⟨hends.frame, hends.wait, hends.events, hends.controller⟩
  | @served state tag kg asks answer positive =>
    right
    exact ⟨state, tag, asks, rfl, rfl, ⟨kg, rfl⟩, rfl⟩

/-- A step changes neither the configuration nor the number of stations that are remembered. -/
theorem config_step (c : Controller) (around : Surroundings) (rations : ρ) :
    (c.step around rations).controller.config = c.config ∧
      (c.step around rations).controller.stations.length = c.stations.length := by
  cases hphase : c.phase with
  | sendGroupQuery1 | sendGroupQuery2 | sendPresenceQuery | sendFeedCommand tag
  | awaitFeedAck requestedAt tag | sendTerminator =>
    rw [step, hphase]
    exact ⟨rfl, rfl⟩
  | awaitPresenceAck requestedAt =>
    rcases step_of_awaitPresenceAck hphase around rations with hends | ⟨state, tag, -, hserves⟩
    · obtain ⟨state, -, hcontroller⟩ := hends.controller
      rw [hcontroller]
      exact ⟨rfl, List.length_set⟩
    · rw [hserves.controller]
      exact ⟨rfl, List.length_set⟩

/-! ## Runs -/

/-- The steps of a run. -/
def steps (c : Controller) : List (Turn ρ) → List (Step ρ)
  | [] => []
  | turn :: turns =>
    let step := c.step turn.around turn.rations
    step :: step.controller.steps turns

/-- The controller at the end of a run. -/
def after (c : Controller) : List (Turn ρ) → Controller
  | [] => c
  | turn :: turns => (c.step turn.around turn.rations).controller.after turns

theorem steps_append (c : Controller) (turns more : List (Turn ρ)) :
    c.steps (turns ++ more) = c.steps turns ++ (c.after turns).steps more := by
  induction turns generalizing c with
  | nil => rfl
  | cons turn turns ih =>
    rw [List.cons_append, steps, steps, after, ih]
    rfl

theorem after_append (c : Controller) (turns more : List (Turn ρ)) :
    c.after (turns ++ more) = (c.after turns).after more := by
  induction turns generalizing c with
  | nil => rfl
  | cons turn turns ih => exact ih _

/-- The controller before the turn `k` of a run. -/
def before (c : Controller) (turns : List (Turn ρ)) (k : Nat) : Controller := c.after (turns.take k)

/-- Each step is made by the controller that the turns before it lead to. -/
theorem getElem?_steps (c : Controller) (turns : List (Turn ρ)) (k : Nat) :
    (c.steps turns)[k]? = turns[k]?.map fun turn =>
      (c.before turns k).step turn.around turn.rations := by
  induction turns generalizing c k with
  | nil => rfl
  | cons turn turns ih =>
    cases k with
    | zero => rfl
    | succ k => exact ih _ k

variable {turns : List (Turn ρ)} {k : Nat}

theorem getElem?_steps_of_turn {turn : Turn ρ} (h : turns[k]? = some turn) :
    (c.steps turns)[k]? = some ((c.before turns k).step turn.around turn.rations) := by
  rw [getElem?_steps, h, Option.map_some]

theorem exists_turn {step : Step ρ} (h : (c.steps turns)[k]? = some step) :
    ∃ turn, turns[k]? = some turn ∧ step = (c.before turns k).step turn.around turn.rations := by
  rw [getElem?_steps] at h
  obtain ⟨turn, hturn, hstep⟩ := Option.map_eq_some_iff.1 h
  exact ⟨turn, hturn, hstep.symm⟩

theorem before_succ {turn : Turn ρ} (h : turns[k]? = some turn) :
    c.before turns (k + 1) = ((c.before turns k).step turn.around turn.rations).controller := by
  rw [before, List.take_add_one, h, after_append]
  rfl

theorem before_succ_of_none (h : turns[k]? = none) :
    c.before turns (k + 1) = c.before turns k := by
  rw [before, List.take_add_one, h, Option.toList_none, List.append_nil]
  rfl

theorem config_before (c : Controller) (turns : List (Turn ρ)) (k : Nat) :
    (c.before turns k).config = c.config := by
  induction k with
  | zero => rfl
  | succ k ih =>
    cases hturn : turns[k]? with
    | none => rw [before_succ_of_none hturn, ih]
    | some turn => rw [before_succ hturn, (config_step _ _ _).1, ih]

end Controller

end Fodder
