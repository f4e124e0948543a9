import Fodder.Plant
import Fodder.Proofs.Evaluation
import Fodder.Proofs.Interval
import Fodder.Proofs.Rounds

/-!
# From an acknowledgement to a feed

What a round does about a cow is decided where the answer to its presence query is evaluated, in the
turn after the query. Whether a ration is asked for, what is told, which feed is remembered and which
collar is noted as present all hang on three things: the newest acknowledgement, the interval of the
station, and the answer of whoever decides about rations. A feed that is decided on is commanded in
the next turn, and whether it was acknowledged is told in the turn after that.
-/
namespace Fodder

variable {ρ : Type}

theorem take_drop_three {α : Type} {items : List α} {k : Nat} {first second third : α}
    (hfirst : items[k]? = some first) (hsecond : items[k + 1]? = some second)
    (hthird : items[k + 2]? = some third) : (items.take (k + 3)).drop k = [first, second, third] := by
  have hlength : k + 3 - k = 3 := by omega
  rw [List.drop_take, hlength, List.drop_eq_getElem?_toList_append, hfirst,
    List.drop_eq_getElem?_toList_append, hsecond, List.drop_eq_getElem?_toList_append, hthird]
  rfl

namespace Controller

/-! ## What a run shows -/

section Run

variable (c : Controller) (turns : List (Turn ρ))

def newestAt (k : Nat) : Option Ack := (turns[k]?).bind (·.around.newest)

/-- The evaluation of the presence query of the turn `q` finds, as the newest acknowledgement, one with
this collar that was received after the query. -/
def Hears (q : Nat) (tag : UInt16) : Prop :=
  ∃ time, newestAt turns (q + 1) = some ⟨time, tag⟩ ∧ clockAt turns q < time

variable [RationSource ρ]

/-- A cow is to be asked about after the presence query of the turn `q`. -/
structure Due (q : Nat) (station : UInt8) (tag : UInt16) : Prop where
  query : c.Sends turns q .presenceQuery station
  heard : Hears turns q tag
  present : tag ≠ 0
  elapsed : ∀ last, (c.before turns (q + 1)).lastFeed? station = some last →
    c.config.minDispenseIntervalMs.toNat < clockAt turns (q + 1) - last

/-- The answer that is given in the turn `k` when it is asked for. -/
def Answers (k : Nat) (station : UInt8) (tag : UInt16) (answer : Except AllocationError Allocation) :
    Prop :=
  ∃ turn, turns[k]? = some turn ∧ (RationSource.allocate turn.rations tag station).1 = answer

/-- A ration of more than nothing is granted after the presence query of the turn `q`. -/
structure Grants (q : Nat) (station : UInt8) (tag : UInt16) (kg : Amount) : Prop where
  due : c.Due turns q station tag
  answer : Answers turns (q + 1) station tag (.ok (.dispense kg))
  positive : kg.isPositive = true

/-- All that the evaluation after the presence query of the turn `q` can tell. -/
inductive Verdict (q : Nat) (station : UInt8) : List Event → Prop
  | noResponse (unheard : ∀ tag, ¬Hears turns q tag) : Verdict q station [.noResponse station]
  | stationEmpty (heard : Hears turns q 0) : Verdict q station [.stationEmpty station]
  | intervalPending {tag : UInt16} (heard : Hears turns q tag) (present : tag ≠ 0)
      (early : ¬c.Due turns q station tag) :
      Verdict q station [.cowPresent station tag, .intervalPending station tag]
  | declined {tag : UInt16} {answer : Except AllocationError Allocation} {event : Event}
      (due : c.Due turns q station tag) (given : Answers turns (q + 1) station tag answer)
      (declines : Declines station tag answer event) :
      Verdict q station [.cowPresent station tag, event]
  | dispensing {tag : UInt16} {kg : Amount} (granted : c.Grants turns q station tag kg) :
      Verdict q station [.cowPresent station tag, .dispensing station tag kg]

def Tells (k : Nat) (event : Event) : Prop :=
  ∃ step, (c.steps turns)[k]? = some step ∧ event ∈ step.events

/-- What is told from the turn `k` on and before the turn `m` of what became of feeds. -/
def reports (k m : Nat) : List Event :=
  ((((c.steps turns).take m).drop k).flatMap Step.events).filter Event.isReport

/-- No round ends from the turn `k` on and before the turn `m`. -/
def WithinRound (k m : Nat) : Prop :=
  ∀ j other, k ≤ j → j < m → ¬c.Sends turns j .terminator other

/-- The collar is the one accepted in the last evaluation for the station before the turn `k`, or zero
if none was accepted in it or if there was no evaluation yet. -/
def Noted (k : Nat) (station : UInt8) (tag : UInt16) : Prop :=
  (∃ q, q + 1 < k ∧ c.Sends turns q .presenceQuery station ∧
      (∀ p, q < p → p + 1 < k → ¬c.Sends turns p .presenceQuery station) ∧
      (Hears turns q tag ∨ tag = 0 ∧ ∀ other, ¬Hears turns q other)) ∨
    tag = 0 ∧ ∀ p, p + 1 < k → ¬c.Sends turns p .presenceQuery station

/-- How a run decides about cows, turn by turn. -/
structure Decides : Prop where
  /-- A ration is asked for where a cow is due, once, and nowhere else. -/
  asked : ∀ k turn step, turns[k]? = some turn → (c.steps turns)[k]? = some step →
    (∃ q station tag, k = q + 1 ∧ c.Due turns q station tag ∧ step.calls = [(tag, station)] ∧
        step.rations = (RationSource.allocate turn.rations tag station).2) ∨
      (∀ q station tag, k = q + 1 → ¬c.Due turns q station tag) ∧ step.calls = [] ∧
        step.rations = turn.rations
  told : ∀ k station tag kg, c.Tells turns k (.dispensing station tag kg) ↔
    ∃ q, k = q + 1 ∧ c.Grants turns q station tag kg
  /-- A feed counts from the query of its round. -/
  commits : ∀ q station tag kg, c.Grants turns q station tag kg →
    (c.before turns (q + 2)).lastFeed? station =
      some
        (((c.before turns (q + 1)).lastFeed? station).elim (clockAt turns q)
          (max (clockAt turns q)))
  keeps : ∀ k station, (∀ q tag kg, k = q + 1 → ¬c.Grants turns q station tag kg) →
    (c.before turns (k + 1)).lastFeed? station = (c.before turns k).lastFeed? station
  commands : ∀ k station, c.Sends turns k .feedCommand station ↔
    k < turns.length ∧ ∃ q tag kg, k = q + 2 ∧ c.Grants turns q station tag kg
  verdict : ∀ q station step, c.Sends turns q .presenceQuery station →
    (c.steps turns)[q + 1]? = some step → c.Verdict turns q station step.events
  /-- Before the terminator goes out, it is told once what became of a feed. -/
  reported : ∀ k m station other tag kg, c.Tells turns k (.dispensing station tag kg) → k < m →
    c.WithinRound turns k m → c.Sends turns m .terminator other →
      c.reports turns k m = [.feedConfirmed station tag] ∨
        c.reports turns k m = [.feedUnconfirmed station tag]
  fed : ∀ k station tag event, c.Tells turns k event →
    event = .feedConfirmed station tag ∨ event = .feedUnconfirmed station tag →
      ∃ j kg, j < k ∧ c.WithinRound turns j k ∧ c.Tells turns j (.dispensing station tag kg)
  table : ∀ k, (c.before turns k).stations.length = 4
  present : ∀ k station state, k ≤ turns.length → (c.before turns k).station? station = some state →
    c.Noted turns k station state.present

end Run

section Run

variable [RationSource ρ] {c : Controller} {turns : List (Turn ρ)} {k q : Nat} {turn : Turn ρ}
  {station : UInt8} {tag : UInt16} {state : Station} {kg : Amount}

/-! ### Phases of a round -/

theorem Sends.lt_length {frame : Frame} (h : c.Sends turns k frame station) : k < turns.length :=
  (sends_iff.1 h).1

/-- After a presence query its answer is awaited. -/
theorem Sends.awaits (h : c.Sends turns q .presenceQuery station) :
    (c.before turns (q + 1)).phase = .awaitPresenceAck (clockAt turns q) ∧
      (c.before turns (q + 1)).station = station := by
  obtain ⟨hlt, hrequest, hstation⟩ := sends_iff.1 h
  have hturn : turns[q]? = some turns[q] := List.getElem?_eq_getElem hlt
  rw [before_succ hturn, clockAt_eq hturn, step, Phase.request?_eq_presenceQuery_iff.1 hrequest]
  exact ⟨rfl, hstation⟩

/-- A terminator goes out when nothing is left to do in the round. -/
theorem Sends.phase_of_terminator (h : c.Sends turns k .terminator station) :
    (c.before turns k).phase = .sendTerminator :=
  Phase.request?_eq_terminator_iff.1 (sends_iff.1 h).2.1

theorem Sends.lt_of_phase_ne {m : Nat} (h : c.Sends turns m .terminator station) (hle : k ≤ m)
    (hphase : (c.before turns k).phase ≠ .sendTerminator) : k < m := by
  refine lt_of_le_of_ne hle ?_
  rintro rfl
  exact hphase h.phase_of_terminator

theorem phase_after_feedCommand (hlt : k < turns.length)
    (hphase : (c.before turns k).phase = .sendFeedCommand tag) :
    (c.before turns (k + 1)).phase = .awaitFeedAck turns[k].around.now tag ∧
      (c.before turns (k + 1)).station = (c.before turns k).station := by
  rw [before_succ (List.getElem?_eq_getElem hlt), (step_of_sendFeedCommand hphase _ _).1]
  exact ⟨rfl, rfl⟩

theorem phase_after_report {requestedAt : Nat} (hlt : k < turns.length)
    (hphase : (c.before turns k).phase = .awaitFeedAck requestedAt tag) :
    (c.before turns (k + 1)).phase = .sendTerminator := by
  rw [before_succ (List.getElem?_eq_getElem hlt), (step_of_awaitFeedAck hphase _ _).1]
  rfl

theorem sends_terminator (hlt : k < turns.length)
    (hphase : (c.before turns k).phase = .sendTerminator) :
    c.Sends turns k .terminator (c.before turns k).station :=
  sends_iff.2 ⟨hlt, Phase.request?_eq_terminator_iff.2 hphase, rfl⟩

/-! ### The turn after a presence query -/

/-- The turn `q + 1` evaluates the presence query of the turn `q`. -/
structure Evaluates (c : Controller) (turns : List (Turn ρ)) (q : Nat) (station : UInt8)
    (turn : Turn ρ) (state : Station) : Prop where
  query : c.Sends turns q .presenceQuery station
  taken : turns[q + 1]? = some turn
  phase : (c.before turns (q + 1)).phase = .awaitPresenceAck (clockAt turns q)
  place : (c.before turns (q + 1)).station = station
  state : (c.before turns (q + 1)).station? station = some state

section Evaluates

variable (h : c.Evaluates turns q station turn state)

include h

theorem Evaluates.checks : (c.before turns (q + 1)).Checks turn.around turn.rations (clockAt turns q)
    (some state) ((c.before turns (q + 1)).step turn.around turn.rations) := by
  have hchecks := checks_step _ h.phase turn.around turn.rations
  rwa [h.place, h.state] at hchecks

theorem Evaluates.hears_iff :
    Hears turns q tag ↔ ∃ time, fresh? turn.around.newest (clockAt turns q) = some ⟨time, tag⟩ := by
  have hnewest : newestAt turns (q + 1) = turn.around.newest := by
    rw [newestAt, h.taken]
    rfl
  simp only [Hears, hnewest, fresh?, Option.filter_eq_some_iff, decide_eq_true_eq]

theorem Evaluates.not_hears (hunheard : fresh? turn.around.newest (clockAt turns q) = none)
    (tag : UInt16) : ¬Hears turns q tag := by
  rw [h.hears_iff, hunheard]
  simp

theorem Evaluates.due_iff : c.Due turns q station tag ↔
    (c.before turns (q + 1)).Asks turn.around state tag (clockAt turns q) := by
  have hlast : (c.before turns (q + 1)).lastFeed? station = state.lastFeed := by
    rw [lastFeed?, h.state]
    rfl
  have helapsed : state.intervalElapsed turn.around.now
      (c.before turns (q + 1)).config.minDispenseIntervalMs = true ↔
      ∀ last, (c.before turns (q + 1)).lastFeed? station = some last →
        c.config.minDispenseIntervalMs.toNat < clockAt turns (q + 1) - last := by
    rw [hlast, clockAt_eq h.taken, config_before, Station.intervalElapsed]
    cases state.lastFeed <;> simp
  constructor
  · intro hdue
    exact ⟨h.phase, by rw [h.place, h.state], h.hears_iff.1 hdue.heard, hdue.present,
      helapsed.2 hdue.elapsed⟩
  · intro hasks
    exact ⟨h.query, h.hears_iff.2 hasks.heard, hasks.present, helapsed.1 hasks.elapsed⟩

theorem Evaluates.answers_iff {answer : Except AllocationError Allocation} :
    Answers turns (q + 1) station tag answer ↔
      (RationSource.allocate turn.rations tag station).1 = answer := by
  simp only [Answers, h.taken, Option.some.injEq, exists_eq_left']

/-- A cow that is asked about is the one that is due. -/
theorem Evaluates.due_of_asks {around : Station} {requestedAt : Nat}
    (hasks : (c.before turns (q + 1)).Asks turn.around around tag requestedAt) :
    c.Due turns q station tag := by
  have hstate := hasks.station
  rw [h.place, h.state, Option.some.injEq] at hstate
  have hphase := hasks.phase
  rw [h.phase, Phase.awaitPresenceAck.injEq] at hphase
  subst hstate hphase
  exact h.due_iff.2 hasks

/-- A ration that is granted is told of, and commanded next. -/
theorem Evaluates.step_of_grants (hgrants : c.Grants turns q station tag kg) :
    let step := (c.before turns (q + 1)).step turn.around turn.rations
    step.events = [.cowPresent station tag, .dispensing station tag kg] ∧
      step.controller.phase = .sendFeedCommand tag ∧ step.controller.station = station := by
  intro step
  have hstep := step_of_asks _ (h.due_iff.1 hgrants.due) turn.rations
  have hanswer := h.answers_iff.1 hgrants.answer
  rcases (c.before turns (q + 1)).consult_serves_or_declines (state.markPresent tag) tag
      (clockAt turns q) turn.rations with ⟨other, hother, -, hserved⟩ | ⟨event, hdeclines, -⟩
  · rw [h.place, hanswer] at hother
    obtain rfl : kg = other := by simpa using hother
    simp only [step, hstep, hserved, h.place]
    exact ⟨trivial, rfl, h.place⟩
  · rw [h.place] at hdeclines
    exact absurd (hdeclines.nothing kg hanswer) (by simp [hgrants.positive])

theorem Evaluates.verdict : c.Verdict turns q station
    ((c.before turns (q + 1)).step turn.around turn.rations).events := by
  have hchecks := h.checks
  generalize (c.before turns (q + 1)).step turn.around turn.rations = step at hchecks
  cases hchecks with
  | noResponse unheard =>
    rw [h.place]
    exact .noResponse (h.not_hears unheard)
  | stationEmpty heard =>
    rw [h.place]
    exact .stationEmpty (h.hears_iff.2 ⟨_, heard⟩)
  | @intervalPending _ time tag heard present early =>
    simp only [h.place, dismiss]
    refine .intervalPending (h.hears_iff.2 ⟨_, heard⟩) present fun hdue => ?_
    have helapsed := (h.due_iff.1 hdue).elapsed
    rw [early] at helapsed
    cases helapsed
  | declined asks declines =>
    simp only [h.place, dismiss] at declines ⊢
    exact .declined (h.due_iff.2 asks) (h.answers_iff.2 rfl) declines
  | served asks answer positive =>
    simp only [h.place] at answer ⊢
    exact .dispensing ⟨h.due_iff.2 asks, h.answers_iff.2 answer, positive⟩

end Evaluates

/-! ### All turns -/

/-- A run that begins with a round and in which the station of the round is always remembered. -/
structure Ready (c : Controller) (turns : List (Turn ρ)) : Prop where
  opening : c.phase = .sendGroupQuery1
  known : ∀ k, ((c.before turns k).station? (c.before turns k).station).isSome
  table : c.stations = List.replicate Config.maxStations {}

theorem ready_start (config : Config) (turns : List (Turn ρ)) : (start config).Ready turns where
  opening := rfl
  known k := by
    obtain ⟨rounds, unfinished, -, hprogress⟩ := exists_progress config (turns.take k)
    exact hprogress.station_lt.2
  table := rfl

section Ready

variable (h : c.Ready turns)

include h

/-- No answer is awaited at the beginning. -/
theorem Ready.pending? : c.phase.pending? = none := by
  rw [h.opening]
  rfl

theorem Ready.exists_evaluates (hquery : c.Sends turns q .presenceQuery station)
    (hturn : turns[q + 1]? = some turn) : ∃ state, c.Evaluates turns q station turn state := by
  obtain ⟨hphase, hstation⟩ := hquery.awaits
  obtain ⟨state, hstate⟩ := Option.isSome_iff_exists.1 (h.known (q + 1))
  exact ⟨state, hquery, hturn, hphase, hstation, hstation ▸ hstate⟩

/-- A turn evaluates the presence query of the turn before, or there was none and nothing is asked. -/
theorem Ready.turn_cases (hturn : turns[k]? = some turn) :
    (∃ q station state, k = q + 1 ∧ c.Evaluates turns q station turn state) ∨
      (∀ q station, k = q + 1 → ¬c.Sends turns q .presenceQuery station) ∧
        (∀ requestedAt, (c.before turns k).phase ≠ .awaitPresenceAck requestedAt) ∧
        ((c.before turns k).step turn.around turn.rations).Quiet turn.rations := by
  by_cases hphase : ∃ requestedAt, (c.before turns k).phase = .awaitPresenceAck requestedAt
  · left
    obtain ⟨requestedAt, hphase⟩ := hphase
    obtain ⟨q, rfl, hquery, -⟩ := exists_query h.pending? hturn hphase
    obtain ⟨state, hevaluates⟩ := h.exists_evaluates hquery hturn
    exact ⟨q, _, state, rfl, hevaluates⟩
  · right
    rw [not_exists] at hphase
    refine ⟨?_, hphase, ?_⟩
    · rintro q station rfl hquery
      exact hphase _ hquery.awaits.1
    · rcases (c.before turns k).step_cases turn.around turn.rations with
        hquiet | ⟨state, tag, requestedAt, hasks⟩
      · exact hquiet
      · exact absurd hasks.phase (hphase requestedAt)

theorem Ready.asked (hturn : turns[k]? = some turn) :
    let step := (c.before turns k).step turn.around turn.rations
    (∃ q station tag, k = q + 1 ∧ c.Due turns q station tag ∧ step.calls = [(tag, station)] ∧
        step.rations = (RationSource.allocate turn.rations tag station).2) ∨
      (∀ q station tag, k = q + 1 → ¬c.Due turns q station tag) ∧ step.calls = [] ∧
        step.rations = turn.rations := by
  intro step
  rcases h.turn_cases hturn with ⟨q, station, state, rfl, heval⟩ | ⟨hnone, -, hquiet⟩
  · by_cases hdue : ∃ tag, c.Due turns q station tag
    · left
      obtain ⟨tag, hdue⟩ := hdue
      have hstep : step = (c.before turns (q + 1)).consult (state.markPresent tag) tag _ turn.rations :=
        step_of_asks _ (heval.due_iff.1 hdue) turn.rations
      refine ⟨q, station, tag, rfl, hdue, ?_, ?_⟩
      · rw [hstep, consult_calls, heval.place]
      · rw [hstep, consult_rations, heval.place]
    · right
      rw [not_exists] at hdue
      rcases (c.before turns (q + 1)).step_cases turn.around turn.rations with
        hquiet | ⟨other, tag, requestedAt, hasks⟩
      · refine ⟨fun q' station' tag hq hdue' => ?_, hquiet.calls, hquiet.rations⟩
        obtain rfl : q = q' := Nat.succ.inj hq
        have hstation : station = station' := heval.place.symm.trans hdue'.query.awaits.2
        exact hdue tag (hstation ▸ hdue')
      · exact absurd (heval.due_of_asks hasks) (hdue tag)
  · have hundue : ∀ q station tag, k = q + 1 → ¬c.Due turns q station tag :=
      fun q station tag hq hdue => hnone q station hq hdue.query
    exact .inr ⟨hundue, hquiet.calls, hquiet.rations⟩

theorem Ready.told : c.Tells turns k (.dispensing station tag kg) ↔
    ∃ q, k = q + 1 ∧ c.Grants turns q station tag kg := by
  constructor
  · rintro ⟨step, hstep, hevent⟩
    obtain ⟨turn, hturn, rfl⟩ := exists_turn hstep
    rcases h.turn_cases hturn with ⟨q, place, state, rfl, heval⟩ | ⟨-, -, hquiet⟩
    · have hverdict := heval.verdict
      generalize ((c.before turns (q + 1)).step turn.around turn.rations).events = events
        at hevent hverdict
      cases hverdict with
      | noResponse | stationEmpty | intervalPending => simp at hevent
      | declined due given declines =>
        have hne := declines.ne_dispensing station tag kg
        simp [hne.symm] at hevent
      | @dispensing tag' kg' granted =>
        obtain ⟨rfl, rfl, rfl⟩ : station = place ∧ tag = tag' ∧ kg = kg' := by simpa using hevent
        exact ⟨q, rfl, granted⟩
    · exact absurd hevent (hquiet.events station tag kg)
  · rintro ⟨q, rfl, hgrants⟩
    obtain ⟨turn, hturn, -⟩ := hgrants.answer
    obtain ⟨state, heval⟩ := h.exists_evaluates hgrants.due.query hturn
    refine ⟨_, getElem?_steps_of_turn hturn, ?_⟩
    rw [(heval.step_of_grants hgrants).1]
    simp

theorem Ready.feeds_iff : c.Feeds turns k station ↔
    ∃ q tag kg, k = q + 1 ∧ c.Grants turns q station tag kg := by
  constructor
  · rintro ⟨step, tag, kg, hstep, hevent⟩
    obtain ⟨q, hq, hgrants⟩ := h.told.1 ⟨step, hstep, hevent⟩
    exact ⟨q, tag, kg, hq, hgrants⟩
  · rintro ⟨q, tag, kg, hq, hgrants⟩
    obtain ⟨step, hstep, hevent⟩ := h.told.2 ⟨q, hq, hgrants⟩
    exact ⟨step, tag, kg, hstep, hevent⟩

theorem Ready.commits (hgrants : c.Grants turns q station tag kg) :
    (c.before turns (q + 2)).lastFeed? station =
      some
        (((c.before turns (q + 1)).lastFeed? station).elim (clockAt turns q)
          (max (clockAt turns q))) := by
  have hfeeds : c.Feeds turns (q + 1) station := h.feeds_iff.2 ⟨q, tag, kg, rfl, hgrants⟩
  obtain ⟨q', state, hafter, -, -, hcommitted⟩ := hfeeds.exists_feedsAfter h.pending?
  obtain rfl : q = q' := Nat.succ.inj hafter.eq_succ
  exact hcommitted

/-! ### Commands and reports -/

/-- After a ration is granted its feed is to be commanded. -/
theorem Ready.phase_of_grants (hgrants : c.Grants turns q station tag kg) :
    (c.before turns (q + 2)).phase = .sendFeedCommand tag ∧
      (c.before turns (q + 2)).station = station := by
  obtain ⟨turn, hturn, -⟩ := hgrants.answer
  obtain ⟨state, heval⟩ := h.exists_evaluates hgrants.due.query hturn
  rw [before_succ hturn]
  exact (heval.step_of_grants hgrants).2

/-- Only a feed that was granted is commanded. -/
theorem Ready.exists_grants (hk : k ≤ turns.length)
    (hphase : (c.before turns k).phase = .sendFeedCommand tag) :
    ∃ q kg, k = q + 2 ∧ c.Grants turns q (c.before turns k).station tag kg := by
  cases k with
  | zero => cases h.opening.symm.trans hphase
  | succ p =>
    have hturn : turns[p]? = some turns[p] := List.getElem?_eq_getElem hk
    rw [before_succ hturn] at hphase
    rcases h.turn_cases hturn with ⟨q, station, state, rfl, heval⟩ | ⟨-, -, hquiet⟩
    · obtain ⟨kg, hevent⟩ := heval.checks.of_sendFeedCommand hphase
      obtain ⟨q', hq, hgrants⟩ := h.told.1 ⟨_, getElem?_steps_of_turn hturn, hevent⟩
      obtain rfl : q = q' := Nat.succ.inj hq
      refine ⟨q, kg, rfl, ?_⟩
      rw [(h.phase_of_grants hgrants).2]
      exact hgrants
    · exact absurd hphase (hquiet.phase tag)

theorem Ready.commands : c.Sends turns k .feedCommand station ↔
    k < turns.length ∧ ∃ q tag kg, k = q + 2 ∧ c.Grants turns q station tag kg := by
  rw [sends_iff, Phase.request?_eq_feedCommand_iff]
  constructor
  · rintro ⟨hlt, ⟨tag, hphase⟩, rfl⟩
    obtain ⟨q, kg, hq, hgrants⟩ := h.exists_grants hlt.le hphase
    exact ⟨hlt, q, tag, kg, hq, hgrants⟩
  · rintro ⟨hlt, q, tag, kg, rfl, hgrants⟩
    obtain ⟨hphase, hstation⟩ := h.phase_of_grants hgrants
    exact ⟨hlt, ⟨tag, hphase⟩, hstation⟩

/-- A round in which a ration is granted ends after the command and the report. -/
theorem Ready.end_of_grants (hgrants : c.Grants turns q station tag kg) {m : Nat} (hlt : q + 1 < m)
    (hround : c.WithinRound turns (q + 1) m) {other : UInt8}
    (hends : c.Sends turns m .terminator other) : m = q + 4 := by
  obtain ⟨hphase, -⟩ := h.phase_of_grants hgrants
  have hcommand : q + 2 < m := hends.lt_of_phase_ne hlt (by rw [hphase]; simp)
  obtain ⟨hawaits, -⟩ := phase_after_feedCommand (hcommand.trans hends.lt_length) hphase
  have hreport : q + 3 < m := hends.lt_of_phase_ne hcommand (by rw [hawaits]; simp)
  have hend := phase_after_report (hreport.trans hends.lt_length) hawaits
  by_contra hne
  have hlater : q + 4 < m := lt_of_le_of_ne hreport (Ne.symm hne)
  exact hround (q + 4) _ (by omega) hlater (sends_terminator (hlater.trans hends.lt_length) hend)

/-- Of the three turns after the query, the last one reports. -/
theorem Ready.reports_of_grants (hgrants : c.Grants turns q station tag kg)
    (hlt : q + 3 < turns.length) :
    c.reports turns (q + 1) (q + 4) = [.feedConfirmed station tag] ∨
      c.reports turns (q + 1) (q + 4) = [.feedUnconfirmed station tag] := by
  have hone : turns[q + 1]? = some turns[q + 1] := List.getElem?_eq_getElem (by omega)
  have htwo : turns[q + 2]? = some turns[q + 2] := List.getElem?_eq_getElem (by omega)
  have hthree : turns[q + 3]? = some turns[q + 3] := List.getElem?_eq_getElem hlt
  obtain ⟨state, heval⟩ := h.exists_evaluates hgrants.due.query hone
  obtain ⟨hphase, hstation⟩ := h.phase_of_grants hgrants
  obtain ⟨hawaits, hplace⟩ := phase_after_feedCommand (by omega) hphase
  have hevaluation := heval.checks.reports
  obtain ⟨-, hcommand⟩ := step_of_sendFeedCommand hphase turns[q + 2].around turns[q + 2].rations
  obtain ⟨-, hreport⟩ := step_of_awaitFeedAck hawaits turns[q + 3].around turns[q + 3].rations
  rw [hplace, hstation] at hreport
  rw [reports, take_drop_three (getElem?_steps_of_turn hone) (getElem?_steps_of_turn htwo)
    (getElem?_steps_of_turn hthree)]
  simp only [List.flatMap_cons, List.flatMap_nil, List.filter_append, hevaluation, hcommand,
    List.nil_append, List.append_nil]
  exact hreport.imp (fun htold => by rw [htold]; rfl) fun htold => by rw [htold]; rfl

theorem Ready.reported (htold : c.Tells turns k (.dispensing station tag kg)) {m : Nat} (hlt : k < m)
    (hround : c.WithinRound turns k m) {other : UInt8} (hends : c.Sends turns m .terminator other) :
    c.reports turns k m = [.feedConfirmed station tag] ∨
      c.reports turns k m = [.feedUnconfirmed station tag] := by
  obtain ⟨q, rfl, hgrants⟩ := h.told.1 htold
  obtain rfl := h.end_of_grants hgrants hlt hround hends
  exact h.reports_of_grants hgrants (Nat.lt_of_succ_lt hends.lt_length)

/-- A report follows the granted feed of its round. -/
theorem Ready.fed {event : Event} (htells : c.Tells turns k event)
    (hevent : event = .feedConfirmed station tag ∨ event = .feedUnconfirmed station tag) :
    ∃ j kg, j < k ∧ c.WithinRound turns j k ∧ c.Tells turns j (.dispensing station tag kg) := by
  obtain ⟨step, hstep, hmem⟩ := htells
  obtain ⟨turn, hturn, rfl⟩ := exists_turn hstep
  obtain ⟨hk, -⟩ := List.getElem?_eq_some_iff.1 hturn
  rcases phase_of_report hmem hevent with ⟨rfl, requestedAt, hphase⟩ | ⟨requestedAt, hphase⟩
  · cases k with
    | zero => cases h.opening.symm.trans hphase
    | succ p =>
      have hearlier : turns[p]? = some turns[p] := List.getElem?_eq_getElem (by omega)
      have hawaits := hphase
      rw [before_succ hearlier] at hawaits
      obtain ⟨hcommand, hstation⟩ := phase_of_awaitFeedAck hawaits
      obtain ⟨q, kg, rfl, hgrants⟩ := h.exists_grants (by omega) hcommand
      rw [before_succ hearlier, hstation]
      refine ⟨q + 1, kg, by omega, ?_, h.told.2 ⟨q, rfl, hgrants⟩⟩
      intro j other hqj hjk hends
      have hend := hends.phase_of_terminator
      obtain rfl | rfl : j = q + 1 ∨ j = q + 2 := by omega
      · cases hgrants.due.query.awaits.1.symm.trans hend
      · cases hcommand.symm.trans hend
  · rcases h.turn_cases hturn with ⟨q, place, state, rfl, heval⟩ | ⟨-, hnone, -⟩
    · have hsilent := heval.checks.reports
      rw [List.filter_eq_nil_iff] at hsilent
      rcases hevent with rfl | rfl <;> exact absurd rfl (hsilent _ hmem)
    · exact absurd hphase (hnone requestedAt)

/-! ### Presence -/

omit h in
theorem noted_of_evaluates (heval : c.Evaluates turns q station turn state) :
    c.Noted turns (q + 2) station ((fresh? turn.around.newest (clockAt turns q)).elim 0 Ack.tag) := by
  left
  refine ⟨q, by omega, heval.query, fun p hqp hpk => by omega, ?_⟩
  cases hheard : fresh? turn.around.newest (clockAt turns q) with
  | none => exact .inr ⟨rfl, heval.not_hears hheard⟩
  | some ack => exact .inl (heval.hears_iff.2 ⟨ack.time, hheard⟩)

omit h in
/-- What was noted stays so as long as no other query for the station is evaluated. -/
theorem Noted.succ (hnoted : c.Noted turns k station tag)
    (hnone : ∀ q, k = q + 1 → ¬c.Sends turns q .presenceQuery station) :
    c.Noted turns (k + 1) station tag := by
  have hlater (p : Nat) (hp : p + 1 < k + 1) (hsends : c.Sends turns p .presenceQuery station) :
      p + 1 < k :=
    lt_of_le_of_ne (Nat.le_of_lt_succ hp) fun heq => hnone p heq.symm hsends
  rcases hnoted with ⟨q, hq, hquery, hlast, hheard⟩ | ⟨hzero, hnever⟩
  · left
    refine ⟨q, hq.trans (Nat.lt_succ_self k), hquery, fun p hqp hpk hsends => ?_, hheard⟩
    exact hlast p hqp (hlater p hpk hsends) hsends
  · right
    exact ⟨hzero, fun p hpk hsends => hnever p (hlater p hpk hsends) hsends⟩

/-- In every turn each station notes what its latest evaluation accepted. -/
theorem Ready.noted (hk : k ≤ turns.length)
    (hstate : (c.before turns k).station? station = some state) :
    c.Noted turns k station state.present := by
  induction k generalizing state with
  | zero =>
    right
    have hblank : c.station? station = some state := hstate
    rw [station?, h.table, List.getElem?_replicate] at hblank
    split_ifs at hblank
    obtain rfl := Option.some.inj hblank
    exact ⟨rfl, fun p hp => by omega⟩
  | succ k ih =>
    have hturn : turns[k]? = some turns[k] := List.getElem?_eq_getElem hk
    rw [before_succ hturn] at hstate
    rcases h.turn_cases hturn with ⟨q, place, old, rfl, heval⟩ | ⟨hnone, hphase, -⟩
    · obtain ⟨after, phase, hcontroller, hpresent⟩ := heval.checks.present
      rw [hcontroller, station?_setStation (h.known (q + 1)), heval.place] at hstate
      split_ifs at hstate with hplace
      · obtain rfl := Option.some.inj hstate
        rw [hpresent, hplace]
        exact noted_of_evaluates heval
      · refine (ih (by omega) hstate).succ fun q' hq hsends => hplace ?_
        obtain rfl : q = q' := Nat.succ.inj hq
        exact hsends.awaits.2.symm.trans heval.place
    · rw [station?, stations_step hphase] at hstate
      exact (ih (by omega) hstate).succ fun q hq => hnone q station hq

end Ready

/-- Whatever the clock reads, whatever is acknowledged, whether or not the wire is down and whoever
decides about rations, from the start on a run decides about cows as it should. -/
theorem decides_start (config : Config) (turns : List (Turn ρ)) : (start config).Decides turns := by
  have h := ready_start config turns
  refine ⟨?_, fun k station tag kg => h.told, fun q station tag kg => h.commits, ?_,
    fun k station => h.commands, ?_, fun k m station other tag kg htold hlt hround hends =>
      h.reported htold hlt hround hends, fun k station tag event => h.fed, ?_,
    fun k station state => h.noted⟩
  · intro k turn step hturn hstep
    rw [getElem?_steps_of_turn hturn, Option.some.injEq] at hstep
    rw [← hstep]
    exact h.asked hturn
  · intro k station hnone
    refine lastFeed?_before_succ_of_not fun hfeeds => ?_
    obtain ⟨q, tag, kg, hq, hgrants⟩ := h.feeds_iff.1 hfeeds
    exact hnone q tag kg hq hgrants
  · intro q station step hquery hstep
    obtain ⟨turn, hturn, rfl⟩ := exists_turn hstep
    obtain ⟨state, heval⟩ := h.exists_evaluates hquery hturn
    exact heval.verdict
  · intro k
    obtain ⟨rounds, unfinished, -, hprogress⟩ := exists_progress config (turns.take k)
    exact hprogress.table

end Run

/-- In the fourth turn a cow is heard of and granted 1 kg, which is commanded in the fifth; in the sixth
the command is found acknowledged. The feed counts from the query in the third turn. -/
example :
    let quiet : Script := ⟨[]⟩
    let turns : List (Turn Script) := [
      ⟨⟨0, none, false⟩, quiet⟩, ⟨⟨60, none, false⟩, quiet⟩, ⟨⟨120, none, false⟩, quiet⟩,
      ⟨⟨200, some ⟨150, 17⟩, false⟩, ⟨[.ok (.dispense ⟨0x3F800000⟩)]⟩⟩,
      ⟨⟨200, some ⟨150, 17⟩, false⟩, quiet⟩, ⟨⟨260, some ⟨230, 17⟩, false⟩, quiet⟩]
    let c := start {}
    (c.steps turns).map Step.events =
        [[], [], [], [.cowPresent 0 17, .dispensing 0 17 ⟨0x3F800000⟩], [], [.feedConfirmed 0 17]] ∧
      (c.steps turns).map Step.calls = [[], [], [], [(17, 0)], [], []] ∧
      (c.steps turns).map Step.frame =
        [some (.groupQuery1, 0), some (.groupQuery2, 0), some (.presenceQuery, 0), none,
          some (.feedCommand, 0), none] ∧
      (c.after turns).lastFeed? 0 = some 120 := by
  decide +kernel

end Controller

end Fodder
