import Fodder.Plant
import Fodder.Proofs.Controller

/-!
# Which request an acknowledgement answers

An acknowledgement does not tell which request it answers, and the controller sees no more of the
receiver than the newest one, whose digits may still be arriving. What ties the two together is the
clock: a check accepts only what began after its own request. So no acknowledgement is accepted
twice, and the one that a check accepts began in the same round, after the request went out.
-/
namespace Fodder

/-- The request whose answer is awaited, with the reading of the clock when it went out. -/
def Phase.pending? : Phase → Option (Frame × Nat)
  | .awaitPresenceAck requestedAt => some (.presenceQuery, requestedAt)
  | .awaitFeedAck requestedAt _ => some (.feedCommand, requestedAt)
  | _ => none

/-- How far a round has come. -/
def Phase.place : Phase → Nat
  | .sendGroupQuery1 => 0
  | .sendGroupQuery2 => 1
  | .sendPresenceQuery => 2
  | .awaitPresenceAck _ => 3
  | .sendFeedCommand _ => 4
  | .awaitFeedAck _ _ => 5
  | .sendTerminator => 6

/-- How far a round has come when a request goes out. -/
def Frame.place : Frame → Nat
  | .groupQuery1 => 0
  | .groupQuery2 => 1
  | .presenceQuery => 2
  | .feedCommand => 4
  | .terminator => 6

/-- The request that goes out in a phase. -/
def Phase.request? : Phase → Option Frame
  | .sendGroupQuery1 => some .groupQuery1
  | .sendGroupQuery2 => some .groupQuery2
  | .sendPresenceQuery => some .presenceQuery
  | .sendFeedCommand _ => some .feedCommand
  | .sendTerminator => some .terminator
  | .awaitPresenceAck _ | .awaitFeedAck _ _ => none

theorem Phase.place_of_request? {phase : Phase} {request : Frame}
    (h : phase.request? = some request) : phase.place = request.place := by
  cases phase <;> cases h <;> rfl

theorem Phase.request?_eq_presenceQuery_iff {phase : Phase} :
    phase.request? = some .presenceQuery ↔ phase = .sendPresenceQuery := by
  cases phase <;> simp [request?]

theorem Phase.request?_eq_feedCommand_iff {phase : Phase} :
    phase.request? = some .feedCommand ↔ ∃ tag, phase = .sendFeedCommand tag := by
  cases phase <;> simp [request?]

theorem Phase.request?_eq_terminator_iff {phase : Phase} :
    phase.request? = some .terminator ↔ phase = .sendTerminator := by
  cases phase <;> simp [request?]

/-- An answer is awaited before the round ends. -/
theorem Phase.place_of_pending? {phase : Phase} {request : Frame} {requestedAt : Nat}
    (h : phase.pending? = some (request, requestedAt)) :
    request.place < Frame.terminator.place := by
  cases phase with
  | awaitPresenceAck | awaitFeedAck =>
    obtain ⟨rfl, -⟩ := Prod.mk.inj (Option.some.inj h)
    decide
  | sendGroupQuery1 | sendGroupQuery2 | sendPresenceQuery | sendFeedCommand | sendTerminator =>
    cases h

/-- The request that an event tells an answer to, and the station that answered. -/
def Event.answered? : Event → Option (Frame × UInt8)
  | .cowPresent station _ | .stationEmpty station => some (.presenceQuery, station)
  | .feedConfirmed station _ => some (.feedCommand, station)
  | _ => none

/-- What is told of a cow that gets nothing tells no answer. -/
theorem Declines.answered?_eq_none {station : UInt8} {tag : UInt16}
    {answer : Except AllocationError Allocation} {event : Event}
    (h : Declines station tag answer event) : event.answered? = none := by
  cases h with
  | quotaMet | refused => rfl

variable {ρ : Type}

/-- A step that evaluates the answer to the presence query: it sends nothing and awaits nothing, goes
on within the round, and tells of an answer only if one was heard. -/
structure Step.Evaluates (step : Step ρ) (station : UInt8) (heard : Bool) : Prop where
  frame : step.frame = none
  pending : step.controller.phase.pending? = none
  place : 3 < step.controller.phase.place
  answered : ∀ event ∈ step.events, ∀ answered, event.answered? = some answered →
    answered = (.presenceQuery, station) ∧ heard = true

namespace Controller

theorem evaluates_dismiss (c : Controller) (state : Station) {events : List Event} {heard : Bool}
    (rations : ρ) (hevents : ∀ event ∈ events, ∀ answered, event.answered? = some answered →
      answered = (.presenceQuery, c.station) ∧ heard = true) :
    (c.dismiss state events rations).Evaluates c.station heard :=
  ⟨rfl, rfl, by simp [dismiss, inPhase, Phase.place], hevents⟩

variable [RationSource ρ] {c : Controller} {around : Surroundings} {rations : ρ} {request : Frame}
  {station : UInt8} {requestedAt : Nat}

theorem evaluates_step (hphase : c.phase = .awaitPresenceAck requestedAt) (around : Surroundings)
    (rations : ρ) :
    (c.step around rations).Evaluates c.station (fresh? around.newest requestedAt).isSome := by
  have hchecks := c.checks_step hphase around rations
  generalize c.station? c.station = remembered at hchecks
  generalize c.step around rations = made at hchecks ⊢
  cases hchecks with
  | unknown => exact ⟨rfl, rfl, by simp [inPhase, Phase.place], by simp⟩
  | noResponse unheard => exact c.evaluates_dismiss _ _ (by simp [Event.answered?])
  | stationEmpty heard | intervalPending heard =>
    exact c.evaluates_dismiss _ _ (by simp [Event.answered?, heard])
  | declined asks declines =>
    obtain ⟨time, heard⟩ := asks.heard
    have hpresent (collar : UInt16) :
        (Event.cowPresent c.station collar).answered? = some (.presenceQuery, c.station) := rfl
    exact ⟨rfl, rfl, by simp [dismiss, inPhase, Phase.place],
      by simp [dismiss, hpresent, heard, declines.answered?_eq_none]⟩
  | served asks =>
    obtain ⟨time, heard⟩ := asks.heard
    exact ⟨rfl, rfl, by simp [inPhase, Phase.place], by simp [Event.answered?, heard]⟩

/-- Only a request that went out just now can become the awaited one. -/
theorem step_pending? (h : (c.step around rations).controller.phase.pending? =
    some (request, requestedAt)) :
    (c.step around rations).frame = some (request, c.station) ∧ requestedAt = around.now ∧
      (c.step around rations).controller.station = c.station := by
  cases hphase : c.phase with
  | sendGroupQuery1 | sendGroupQuery2 | sendPresenceQuery | sendFeedCommand | awaitFeedAck
  | sendTerminator => simp_all [step, send, inPhase, nextRound, Phase.pending?]
  | awaitPresenceAck requestedAt =>
    exact absurd ((evaluates_step hphase around rations).pending.symm.trans h) (by simp)

/-- A step goes on within the round or ends it. -/
theorem place_step (c : Controller) (around : Surroundings) (rations : ρ) :
    (c.step around rations).frame = some (.terminator, c.station) ∨
      c.phase.place < (c.step around rations).controller.phase.place := by
  cases hphase : c.phase with
  | sendTerminator => simp [step, hphase, send]
  | sendGroupQuery1 | sendGroupQuery2 | sendPresenceQuery | sendFeedCommand | awaitFeedAck =>
    right
    simp [step, hphase, send, inPhase, Phase.place]
  | awaitPresenceAck requestedAt =>
    right
    exact (evaluates_step hphase around rations).place

/-- What a step sends is decided by the phase alone. -/
theorem frame_step (c : Controller) (around : Surroundings) (rations : ρ) :
    (c.step around rations).frame = c.phase.request?.map (·, c.station) := by
  cases hphase : c.phase with
  | sendGroupQuery1 | sendGroupQuery2 | sendPresenceQuery | sendFeedCommand | awaitFeedAck
  | sendTerminator =>
    rw [step, hphase]
    rfl
  | awaitPresenceAck requestedAt => exact (evaluates_step hphase around rations).frame

theorem frame_eq_some_iff : (c.step around rations).frame = some (request, station) ↔
    c.phase.request? = some request ∧ c.station = station := by
  simp [frame_step]

theorem place_of_frame (h : (c.step around rations).frame = some (request, station)) :
    c.phase.place = request.place :=
  Phase.place_of_request? (frame_eq_some_iff.1 h).1

/-- An answer is told only of the awaited request, and only if something began after it. -/
theorem answered_step {event : Event} (hevent : event ∈ (c.step around rations).events)
    (h : event.answered? = some (request, station)) :
    station = c.station ∧ ∃ requestedAt, c.phase.pending? = some (request, requestedAt) ∧
      (fresh? around.newest requestedAt).isSome := by
  cases hphase : c.phase with
  | sendGroupQuery1 | sendGroupQuery2 | sendPresenceQuery | sendFeedCommand | sendTerminator =>
    rw [step, hphase] at hevent
    simp only [send] at hevent
    split_ifs at hevent <;> simp_all [Event.answered?]
  | awaitFeedAck requestedAt tag =>
    rw [step, hphase] at hevent
    simp only [List.mem_singleton] at hevent
    split_ifs at hevent with hfresh
    · subst hevent
      obtain ⟨rfl, rfl⟩ := Prod.mk.inj (Option.some.inj h)
      exact ⟨rfl, requestedAt, rfl, hfresh⟩
    · subst hevent
      cases h
  | awaitPresenceAck requestedAt =>
    obtain ⟨hanswered, hfresh⟩ := (evaluates_step hphase around rations).answered event hevent _ h
    obtain ⟨rfl, rfl⟩ := Prod.mk.inj hanswered
    exact ⟨rfl, requestedAt, rfl, hfresh⟩

end Controller

namespace Receiver

/-- A byte that begins no acknowledgement leaves the time of the newest one. -/
theorem newest?_onByte (receiver : Receiver) {byte : UInt8} (hstart : byte ≠ startByte) (now : Nat)
    (history : AckHistory) :
    (receiver.onByte byte now history).2.newest?.map Ack.time =
      history.newest?.map Ack.time := by
  have hcredit (weight : UInt16) :
      Ack.time ∘ credit receiver.timeoutMs byte weight now = Ack.time := by
    funext ack
    simp only [Function.comp_apply, credit]
    split <;> rfl
  rw [onByte, if_neg hstart]
  split
  · rfl
  · split
    · rw [AckHistory.newest?_amendNewest, Option.map_map, hcredit]
    · rfl

end Receiver

/-! ## Runs -/

/-- What happens at a reading of the clock. Whoever decides about rations may change between steps. -/
inductive Happening (ρ : Type)
  | byte (byte : UInt8)
  | step (rations : ρ) (wireDown : Bool)

structure Moment (ρ : Type) where
  time : Nat
  happening : Happening ρ

/-- The two parties and the acknowledgements that they share. -/
structure Exchange where
  controller : Controller
  receiver : Receiver
  acks : AckHistory := []

namespace Exchange

variable {ρ : Type}

/-! ### Places in a run -/

def timeAt (moments : List (Moment ρ)) (k : Nat) : Nat := (moments[k]?).elim 0 Moment.time

/-- An acknowledgement begins: its start byte arrives. -/
def Begins (moments : List (Moment ρ)) (i : Nat) : Prop :=
  (moments[i]?).map Moment.happening = some (.byte Receiver.startByte)

/-- The acknowledgement that began at the moment `i` is the newest one before the moment `k`. -/
structure Latest (moments : List (Moment ρ)) (i k : Nat) : Prop where
  lt : i < k
  begins : Begins moments i
  last : ∀ j, i < j → j < k → ¬Begins moments j

theorem timeAt_le {moments : List (Moment ρ)} (hclock : moments.Pairwise (·.time ≤ ·.time))
    {q i : Nat} (hqi : q ≤ i) (hi : i < moments.length) : timeAt moments q ≤ timeAt moments i := by
  rcases hqi.lt_or_eq with hlt | rfl
  · have hle := List.pairwise_iff_getElem.1 hclock q i (hlt.trans hi) hi hlt
    simpa [timeAt, hi, hlt.trans hi] using hle
  · exact le_rfl

/-! ### What is observed -/

variable [RationSource ρ]

def start (config : Config) (timeoutMs : UInt32) : Exchange where
  controller := Controller.start config
  receiver := { timeoutMs }

def around (x : Exchange) (now : Nat) (wireDown : Bool) : Surroundings where
  now := now
  newest := x.acks.newest?
  wireDown := wireDown

/-- The step that a moment brings, if it is not a byte that arrives. -/
def step? (x : Exchange) (moment : Moment ρ) : Option (Step ρ) :=
  match moment.happening with
  | .byte _ => none
  | .step rations wireDown => some (x.controller.step (x.around moment.time wireDown) rations)

def after (x : Exchange) (moment : Moment ρ) : Exchange :=
  match moment.happening with
  | .byte byte =>
    let (receiver, acks) := x.receiver.onByte byte moment.time x.acks
    { x with receiver, acks }
  | .step rations wireDown =>
    { x with controller := (x.controller.step (x.around moment.time wireDown) rations).controller }

/-- What the first `k` moments lead to. -/
def before (x : Exchange) (moments : List (Moment ρ)) (k : Nat) : Exchange :=
  (moments.take k).foldl after x

def stepAt? (x : Exchange) (moments : List (Moment ρ)) (k : Nat) : Option (Step ρ) :=
  moments[k]?.bind (x.before moments k).step?

def Sends (x : Exchange) (moments : List (Moment ρ)) (k : Nat) (frame : Frame) (station : UInt8) :
    Prop :=
  ∃ step, x.stepAt? moments k = some step ∧ step.frame = some (frame, station)

def Tells (x : Exchange) (moments : List (Moment ρ)) (k : Nat) (event : Event) : Prop :=
  ∃ step, x.stepAt? moments k = some step ∧ event ∈ step.events

/-- No round ends from the moment `q` up to the moment `k`. -/
def SameRound (x : Exchange) (moments : List (Moment ρ)) (q k : Nat) : Prop :=
  ∀ j station, q ≤ j → j < k → ¬x.Sends moments j .terminator station

/-- The check at the moment `k` accepts the acknowledgement that began at the moment `i`. -/
structure Accepts (x : Exchange) (moments : List (Moment ρ)) (i k : Nat) : Prop where
  latest : Latest moments i k
  heard : (x.before moments k).acks.newest?.map Ack.time = some (timeAt moments i)
  step : (x.stepAt? moments k).isSome
  fresh : ∃ request requestedAt,
    (x.before moments k).controller.phase.pending? = some (request, requestedAt) ∧
      (fresh? (x.before moments k).acks.newest? requestedAt).isSome

/-- Answers are told in order: no acknowledgement is accepted twice, and what a check tells an answer
to is the one request of its kind in the round, which went out before the acknowledgement began. -/
structure Orderly (x : Exchange) (moments : List (Moment ρ)) : Prop where
  once : ∀ i j k, x.Accepts moments i j → x.Accepts moments i k → j = k
  answers : ∀ k event request station, x.Tells moments k event →
    event.answered? = some (request, station) →
      ∃ q i, x.Sends moments q request station ∧ x.SameRound moments q k ∧
        (∀ p other, p < k → x.Sends moments p request other → x.SameRound moments p k → p = q) ∧
        x.Accepts moments i k ∧ q < i ∧ timeAt moments q < timeAt moments i

variable {x : Exchange} {moments : List (Moment ρ)} {q i k : Nat}

/-! ### One moment -/

theorem before_succ {moment : Moment ρ} (h : moments[k]? = some moment) :
    x.before moments (k + 1) = (x.before moments k).after moment := by
  rw [before, List.take_add_one, h, List.foldl_append]
  rfl

theorem before_succ_of_none (h : moments[k]? = none) :
    x.before moments (k + 1) = x.before moments k := by
  rw [before, List.take_add_one, h, Option.toList_none, List.append_nil]
  rfl

theorem controller_succ_of_none (h : x.stepAt? moments k = none) :
    (x.before moments (k + 1)).controller = (x.before moments k).controller := by
  cases hmoment : moments[k]? with
  | none => rw [before_succ_of_none hmoment]
  | some moment =>
    rw [before_succ hmoment]
    obtain ⟨time, happening⟩ := moment
    cases happening with
    | byte byte => rfl
    | step rations wireDown => simp [stepAt?, hmoment, step?] at h

/-- The controller takes its step from what it finds when it is made. -/
theorem exists_of_stepAt? {step : Step ρ} (h : x.stepAt? moments k = some step) :
    (∃ wireDown rations, step = (x.before moments k).controller.step
      ((x.before moments k).around (timeAt moments k) wireDown) rations) ∧
      (x.before moments (k + 1)).controller = step.controller := by
  cases hmoment : moments[k]? with
  | none => simp [stepAt?, hmoment] at h
  | some moment =>
    rw [before_succ hmoment]
    obtain ⟨time, happening⟩ := moment
    cases happening with
    | byte byte => simp [stepAt?, hmoment, step?] at h
    | step rations wireDown =>
      have hstep : step = (x.before moments k).controller.step
          ((x.before moments k).around (timeAt moments k) wireDown) rations := by
        simpa [stepAt?, hmoment, step?, timeAt] using h.symm
      refine ⟨⟨wireDown, rations, hstep⟩, ?_⟩
      rw [hstep]
      simp [after, timeAt, hmoment]

/-- An acknowledgement begins, or the newest one keeps its time. -/
theorem newest_succ_cases (x : Exchange) (moments : List (Moment ρ)) (k : Nat) :
    (Begins moments k ∧
      (x.before moments (k + 1)).acks.newest?.map Ack.time = some (timeAt moments k)) ∨
    (¬Begins moments k ∧ (x.before moments (k + 1)).acks.newest?.map Ack.time =
      (x.before moments k).acks.newest?.map Ack.time) := by
  cases hmoment : moments[k]? with
  | none =>
    rw [before_succ_of_none hmoment]
    exact .inr ⟨by simp [Begins, hmoment], rfl⟩
  | some moment =>
    rw [before_succ hmoment]
    obtain ⟨time, happening⟩ := moment
    cases happening with
    | step rations wireDown => exact .inr ⟨by simp [Begins, hmoment], rfl⟩
    | byte byte =>
      by_cases hstart : byte = Receiver.startByte
      · refine .inl ⟨by simp [Begins, hmoment, hstart], ?_⟩
        simp [after, Receiver.onByte, hstart, AckHistory.newest?_push, timeAt, hmoment]
      · refine .inr ⟨by simp [Begins, hmoment, hstart], ?_⟩
        exact Receiver.newest?_onByte _ hstart time _

/-! ### From moment to moment -/

/-- What holds after `k` moments, but not before the first, was brought about by one of them and then
kept by all the others. -/
theorem exists_onset (holds brings keeps : Nat → Prop) (hstart : ¬holds 0)
    (hsucc : ∀ k, holds (k + 1) → brings k ∨ holds k ∧ keeps k) (h : holds k) :
    ∃ q, q < k ∧ brings q ∧ ∀ j, q < j → j < k → keeps j := by
  induction k with
  | zero => exact absurd h hstart
  | succ k ih =>
    rcases hsucc k h with hbrings | ⟨hholds, hkeeps⟩
    · exact ⟨k, Nat.lt_succ_self k, hbrings, by omega⟩
    · obtain ⟨q, hlt, hbrings, hkept⟩ := ih hholds
      refine ⟨q, by omega, hbrings, fun j hqj hjk => ?_⟩
      rcases Nat.lt_succ_iff_lt_or_eq.1 hjk with hjk | rfl
      · exact hkept j hqj hjk
      · exact hkeeps

/-- The newest acknowledgement is the one that began last. -/
theorem exists_latest (hstart : x.acks.newest? = none) {time : Nat}
    (h : (x.before moments k).acks.newest?.map Ack.time = some time) :
    ∃ i, Latest moments i k ∧ timeAt moments i = time := by
  obtain ⟨i, hlt, ⟨hbegins, htime⟩, hlast⟩ :=
    exists_onset (fun k => (x.before moments k).acks.newest?.map Ack.time = some time)
      (fun k => Begins moments k ∧ timeAt moments k = time) (fun k => ¬Begins moments k)
      (by simp [before, hstart])
      (fun k hnewest => by
        rcases x.newest_succ_cases moments k with ⟨hbegins, htime⟩ | ⟨hbegins, hsame⟩
        · exact .inl ⟨hbegins, Option.some.inj (htime.symm.trans hnewest)⟩
        · exact .inr ⟨hsame ▸ hnewest, hbegins⟩) h
  exact ⟨i, ⟨hlt, hbegins, hlast⟩, htime⟩

/-- The awaited request is the last thing that the controller did. -/
theorem exists_sent (hstart : x.controller.phase.pending? = none) {request : Frame}
    {requestedAt : Nat}
    (h : (x.before moments k).controller.phase.pending? = some (request, requestedAt)) :
    ∃ q, q < k ∧ x.Sends moments q request (x.before moments k).controller.station ∧
      timeAt moments q = requestedAt ∧ ∀ j, q < j → j < k → x.stepAt? moments j = none := by
  obtain ⟨q, hlt, ⟨hsends, htime⟩, hquiet⟩ :=
    exists_onset
      (fun j => (x.before moments j).controller.phase.pending? = some (request, requestedAt) ∧
        (x.before moments j).controller.station = (x.before moments k).controller.station)
      (fun j => x.Sends moments j request (x.before moments k).controller.station ∧
        timeAt moments j = requestedAt)
      (fun j => x.stepAt? moments j = none) (by simp [before, hstart])
      (fun j hj => by
        cases hstep : x.stepAt? moments j with
        | none => exact .inr ⟨controller_succ_of_none hstep ▸ hj, rfl⟩
        | some step =>
          left
          obtain ⟨⟨wireDown, rations, rfl⟩, hafter⟩ := exists_of_stepAt? hstep
          rw [hafter] at hj
          obtain ⟨hframe, htime, hstation⟩ := Controller.step_pending? hj.1
          rw [← hstation, hj.2] at hframe
          exact ⟨⟨_, hstep, hframe⟩, htime.symm⟩) ⟨h, rfl⟩
  exact ⟨q, hlt, hsends, htime, hquiet⟩

theorem SameRound.mono {p m : Nat} (h : x.SameRound moments p k) (hpq : p ≤ q) (hmk : m ≤ k) :
    x.SameRound moments q m :=
  fun j station hj hjm => h j station (hpq.trans hj) (hjm.trans_le hmk)

/-- Within a round every step leads on. -/
theorem place_lt_of_stepAt? {step : Step ρ} (hstep : x.stepAt? moments k = some step)
    (h : x.SameRound moments k (k + 1)) :
    (x.before moments k).controller.phase.place <
      (x.before moments (k + 1)).controller.phase.place := by
  obtain ⟨⟨wireDown, rations, rfl⟩, hafter⟩ := exists_of_stepAt? hstep
  rw [hafter]
  rcases Controller.place_step (x.before moments k).controller _ rations with hends | hlt
  · exact absurd ⟨_, hstep, hends⟩ (h k _ le_rfl (Nat.lt_succ_self k))
  · exact hlt

theorem place_le (hqk : q ≤ k) (h : x.SameRound moments q k) :
    (x.before moments q).controller.phase.place ≤ (x.before moments k).controller.phase.place := by
  induction k, hqk using Nat.le_induction with
  | base => exact le_rfl
  | succ k hqk ih =>
    have hbefore := ih (h.mono le_rfl (Nat.le_succ k))
    cases hstep : x.stepAt? moments k with
    | none => rwa [controller_succ_of_none hstep]
    | some step => exact hbefore.trans (place_lt_of_stepAt? hstep (h.mono hqk le_rfl)).le

theorem Sends.place {request : Frame} {station : UInt8} (h : x.Sends moments q request station) :
    (x.before moments q).controller.phase.place = request.place := by
  obtain ⟨step, hstep, hframe⟩ := h
  obtain ⟨⟨wireDown, rations, rfl⟩, -⟩ := exists_of_stepAt? hstep
  exact Controller.place_of_frame hframe

/-- A request goes out once in a round. -/
theorem Sends.not_again {request : Frame} {station other : UInt8}
    (hq : x.Sends moments q request station) (hqk : q < k) (h : x.SameRound moments q k) :
    ¬x.Sends moments k request other := by
  intro hk
  obtain ⟨step, hstep, -⟩ := id hq
  have hlt := place_lt_of_stepAt? hstep (h.mono le_rfl hqk)
  have hle := place_le (show q + 1 ≤ k from hqk) (h.mono (Nat.le_succ q) le_rfl)
  rw [hq.place] at hlt
  rw [hk.place] at hle
  omega

theorem Sends.lt_length {request : Frame} {station : UInt8}
    (h : x.Sends moments q request station) : q < moments.length := by
  obtain ⟨step, hstep, -⟩ := h
  by_contra hle
  rw [stepAt?, List.getElem?_eq_none (Nat.le_of_not_lt hle)] at hstep
  cases hstep

/-- What is accepted began after the awaited request, which was the last thing the controller did. -/
theorem Accepts.exists_sent (hphase : x.controller.phase.pending? = none)
    (hclock : moments.Pairwise (·.time ≤ ·.time)) (h : x.Accepts moments i k) :
    ∃ q request requestedAt,
      (x.before moments k).controller.phase.pending? = some (request, requestedAt) ∧
      x.Sends moments q request (x.before moments k).controller.station ∧
      (∀ j, q < j → j < k → x.stepAt? moments j = none) ∧
      q < i ∧ timeAt moments q < timeAt moments i := by
  obtain ⟨request, requestedAt, hpending, hfresh⟩ := h.fresh
  obtain ⟨ack, hack⟩ := Option.isSome_iff_exists.1 hfresh
  obtain ⟨hnewest, hlater⟩ := Option.filter_eq_some_iff.1 hack
  obtain ⟨q, hqk, hsends, hsent, hquiet⟩ := Exchange.exists_sent hphase hpending
  have htime : ack.time = timeAt moments i := by
    simpa [hnewest] using h.heard
  have hstrict : timeAt moments q < timeAt moments i := by
    rw [hsent, ← htime]
    exact of_decide_eq_true hlater
  refine ⟨q, request, requestedAt, hpending, hsends, hquiet, ?_, hstrict⟩
  by_contra hle
  have hback := timeAt_le hclock (Nat.le_of_not_lt hle) hsends.lt_length
  omega

/-- A later check asks for something newer. -/
theorem Accepts.not_again {j : Nat} (hphase : x.controller.phase.pending? = none)
    (hclock : moments.Pairwise (·.time ≤ ·.time)) (hj : x.Accepts moments i j)
    (hk : x.Accepts moments i k) : ¬j < k := by
  intro hlt
  obtain ⟨q, -, -, -, -, hquiet, hqi, -⟩ := hk.exists_sent hphase hclock
  have hstep := hj.step
  rw [hquiet j (hqi.trans hj.latest.lt) hlt] at hstep
  cases hstep

/-- A check that tells an answer accepts an acknowledgement. -/
theorem Tells.exists_accepts (hacks : x.acks.newest? = none) {event : Event} {request : Frame}
    {station : UInt8} (h : x.Tells moments k event)
    (hanswered : event.answered? = some (request, station)) :
    station = (x.before moments k).controller.station ∧
      (∃ requestedAt, (x.before moments k).controller.phase.pending? = some (request, requestedAt)) ∧
      ∃ i, x.Accepts moments i k := by
  obtain ⟨step, hstep, hevent⟩ := h
  obtain ⟨⟨wireDown, rations, rfl⟩, -⟩ := exists_of_stepAt? hstep
  obtain ⟨hstation, requestedAt, hpending, hfresh⟩ := Controller.answered_step hevent hanswered
  obtain ⟨ack, hack⟩ := Option.isSome_iff_exists.1 hfresh
  have hnewest := congrArg (Option.map Ack.time) (Option.filter_eq_some_iff.1 hack).1
  obtain ⟨i, hlatest, htime⟩ := exists_latest hacks hnewest
  refine ⟨hstation, ⟨requestedAt, hpending⟩, i, ?_⟩
  exact ⟨hlatest, by rw [htime]; exact hnewest, by rw [hstep]; rfl, request, requestedAt, hpending,
    hfresh⟩

/-- No round ends between an awaited request and its check. -/
theorem sameRound_of_quiet {request : Frame} {station : UInt8}
    (hsends : x.Sends moments q request station) (hbefore : request.place < Frame.terminator.place)
    (hquiet : ∀ j, q < j → j < k → x.stepAt? moments j = none) : x.SameRound moments q k := by
  intro j other hqj hjk hends
  rcases hqj.eq_or_lt with rfl | hlt
  · rw [hsends.place.symm.trans hends.place] at hbefore
    exact hbefore.false
  · obtain ⟨step, hstep, -⟩ := hends
    rw [hquiet j hlt hjk] at hstep
    cases hstep

/-- However bytes and steps are interleaved, answers are told in order, as long as the clock never
goes back. -/
theorem orderly_of_clock (config : Config) (timeoutMs : UInt32) {moments : List (Moment ρ)}
    (hclock : moments.Pairwise (·.time ≤ ·.time)) : (start config timeoutMs).Orderly moments where
  once i j k hj hk :=
    le_antisymm (Nat.le_of_not_lt (hk.not_again rfl hclock hj))
      (Nat.le_of_not_lt (hj.not_again rfl hclock hk))
  answers k event request station htells hanswered := by
    obtain ⟨rfl, ⟨requestedAt, hpending⟩, i, haccepts⟩ := htells.exists_accepts rfl hanswered
    obtain ⟨q, request', requestedAt', hpending', hsends, hquiet, hqi, htime⟩ :=
      haccepts.exists_sent rfl hclock
    rw [hpending, Option.some.injEq, Prod.mk.injEq] at hpending'
    obtain ⟨rfl, -⟩ := hpending'
    have hround := sameRound_of_quiet hsends (Phase.place_of_pending? hpending) hquiet
    refine ⟨q, i, hsends, hround, ?_, haccepts, hqi, htime⟩
    intro p other hpk hp hsame
    have hqk : q < k := hqi.trans haccepts.latest.lt
    rcases lt_trichotomy p q with hlt | rfl | hlt
    · exact absurd hsends (hp.not_again hlt (hsame.mono le_rfl hqk.le))
    · rfl
    · obtain ⟨step, hstep, -⟩ := hp
      rw [hquiet p hlt hpk] at hstep
      cases hstep

/-- A station answers late, in the millisecond of the next query; then a cow is there, whose digits
arrive between the query and its check. -/
theorem orderly_lateAnswer :
    let moments : List (Moment Script) := [
      ⟨0, .step ⟨[]⟩ false⟩, ⟨0, .step ⟨[]⟩ false⟩, ⟨0, .step ⟨[]⟩ false⟩,
      ⟨0, .byte 0x06⟩, ⟨2, .byte 0x06⟩, ⟨2, .byte 0x31⟩, ⟨3, .byte 0x37⟩,
      ⟨3, .step ⟨[.ok (.dispense ⟨0x3F800000⟩)]⟩ false⟩, ⟨3, .step ⟨[]⟩ false⟩,
      ⟨3, .byte 0x06⟩, ⟨4, .byte 0x06⟩, ⟨4, .step ⟨[]⟩ true⟩]
    let x := start {} 50
    moments.Pairwise (·.time ≤ ·.time) ∧
      (x.stepAt? moments 7).map Step.events =
        some [.cowPresent 0 170, .dispensing 0 170 ⟨0x3F800000⟩] ∧
      (x.stepAt? moments 11).map Step.events = some [.feedConfirmed 0 170] ∧
      x.Orderly moments := by
  intro moments x
  exact ⟨by decide, by decide +kernel, by decide +kernel, orderly_of_clock {} 50 (by decide)⟩

end Exchange

end Fodder
