import Fodder.Proofs.Course
import Fodder.Proofs.Exchange

/-!
# The interval between feeds

A feed counts from the presence query of its round, and a station remembers the greatest reading of
the clock at such a query. A feed is decided on only if more than the interval has passed since, so
it keeps its distance from every feed before it, also where the clock repeats or goes back in
between.
-/
namespace Fodder

variable {ρ : Type}

namespace Controller

/-- The reading of the clock at the turn `k`. -/
def clockAt (turns : List (Turn ρ)) (k : Nat) : Nat := (turns[k]?).elim 0 (·.around.now)

theorem clockAt_eq {turns : List (Turn ρ)} {k : Nat} {turn : Turn ρ} (h : turns[k]? = some turn) :
    clockAt turns k = turn.around.now := by
  rw [clockAt, h]
  rfl

/-! ## What a step does to the latest feeds -/

/-- What is remembered of the latest feed at a station. -/
def lastFeed? (c : Controller) (station : UInt8) : Option Nat :=
  (c.station? station).bind Station.lastFeed

theorem lastFeed?_start (config : Config) (station : UInt8) :
    (start config).lastFeed? station = none := by
  have hstations : (start config).stations = List.replicate Config.maxStations {} := rfl
  rw [lastFeed?, station?, hstations, List.getElem?_replicate]
  split_ifs <;> rfl

variable {c : Controller} {state : Station} {tag : UInt16} {requestedAt : Nat}

/-- Only what is remembered of the station of the round is replaced. -/
theorem station?_setStation (hold : (c.station? c.station).isSome) (state : Station) (phase : Phase)
    (station : UInt8) : ((c.setStation state).inPhase phase).station? station =
      if station = c.station then some state else c.station? station := by
  have hlt : c.station.toNat < c.stations.length := by
    simpa [station?] using hold
  simp only [station?, setStation, inPhase, List.getElem?_set, UInt8.toNat_inj]
  by_cases hstation : c.station = station
  · simp [hstation, hstation ▸ hlt]
  · simp [hstation, Ne.symm hstation]

theorem lastFeed?_setStation (hold : (c.station? c.station).isSome) (state : Station) (phase : Phase)
    (station : UInt8) : ((c.setStation state).inPhase phase).lastFeed? station =
      if station = c.station then state.lastFeed else c.lastFeed? station := by
  rw [lastFeed?, station?_setStation hold]
  split_ifs <;> rfl

theorem lastFeed?_of_dismisses {step : Step ρ} (h : step.Dismisses c) (station : UInt8) :
    step.controller.lastFeed? station = c.lastFeed? station := by
  obtain ⟨state, hsame, hcontroller⟩ := h.controller
  rw [hcontroller]
  cases hold : c.station? c.station with
  | none =>
    have hlength : c.stations.length ≤ c.station.toNat := List.getElem?_eq_none_iff.1 hold
    rw [setStation, List.set_eq_of_length_le hlength]
    rfl
  | some old =>
    rw [lastFeed?_setStation (by simp [hold])]
    split_ifs with hstation
    · rw [hstation, lastFeed?, hold, hsame old hold]
      rfl
    · rfl

theorem lastFeed?_of_serves {step : Step ρ} (hold : c.station? c.station = some state)
    (h : step.Serves c (state.markPresent tag) tag requestedAt) (station : UInt8) :
    step.controller.lastFeed? station =
      if station = c.station then some ((c.lastFeed? station).elim requestedAt (max requestedAt))
      else c.lastFeed? station := by
  rw [h.controller, lastFeed?_setStation (by simp [hold])]
  by_cases hstation : station = c.station
  · rw [if_pos hstation, if_pos hstation, hstation, lastFeed?, hold]
    rfl
  · rw [if_neg hstation, if_neg hstation]

variable [RationSource ρ]

/-- A step tells of no feed and leaves the latest feeds alone, or it evaluated a presence query and
feeds the cow that it asked about. -/
theorem step_feeds_or_not (c : Controller) (around : Surroundings) (rations : ρ) :
    ((∀ (station : UInt8) (tag : UInt16) (kg : Amount),
          .dispensing station tag kg ∉ (c.step around rations).events) ∧
        ∀ station, (c.step around rations).controller.lastFeed? station = c.lastFeed? station) ∨
      ∃ state tag requestedAt, c.Asks around state tag requestedAt ∧
        (c.step around rations).Serves c (state.markPresent tag) tag requestedAt := by
  cases hphase : c.phase with
  | sendGroupQuery1 | sendGroupQuery2 | sendPresenceQuery | sendFeedCommand tag
  | awaitFeedAck requestedAt tag | sendTerminator =>
    left
    rcases c.step_cases around rations with hquiet | ⟨state, tag, requestedAt, hasks⟩
    · refine ⟨hquiet.events, ?_⟩
      rw [step, hphase]
      exact fun station => rfl
    · cases hphase.symm.trans hasks.phase
  | awaitPresenceAck requestedAt =>
    rcases step_of_awaitPresenceAck hphase around rations with hends | ⟨state, tag, hasks, hserves⟩
    · exact .inl ⟨hends.events, lastFeed?_of_dismisses hends⟩
    · exact .inr ⟨state, tag, requestedAt, hasks, hserves⟩

/-! ## Feeds in a run -/

section Course

variable (c : Controller) (turns : List (Turn ρ))

def Sends (k : Nat) (frame : Frame) (station : UInt8) : Prop :=
  ∃ step, (c.steps turns)[k]? = some step ∧ step.frame = some (frame, station)

/-- The turn `k` tells that a ration goes out at the station. -/
def Feeds (k : Nat) (station : UInt8) : Prop :=
  ∃ step tag kg, (c.steps turns)[k]? = some step ∧ .dispensing station tag kg ∈ step.events

/-- The turn `k` feeds at the station in the round whose presence query went out at the turn `q`. -/
structure FeedsAfter (q k : Nat) (station : UInt8) : Prop where
  lt : q < k
  query : c.Sends turns q .presenceQuery station
  feeds : c.Feeds turns k station
  sameRound : ∀ j other, q < j → j < k → ¬c.Sends turns j .terminator other

/-- Readings of the clock at the presence queries of all rounds that fed before the turn `k`. -/
def queryTimes (k : Nat) (station : UInt8) : Set Nat :=
  {time | ∃ q j, j < k ∧ c.FeedsAfter turns q j station ∧ clockAt turns q = time}

end Course

variable {turns : List (Turn ρ)} {q k : Nat} {station : UInt8}

theorem Feeds.exists_serves (h : c.Feeds turns k station) :
    ∃ turn state tag requestedAt, turns[k]? = some turn ∧ station = (c.before turns k).station ∧
      (c.before turns k).Asks turn.around state tag requestedAt ∧
      ((c.before turns k).step turn.around turn.rations).Serves (c.before turns k)
        (state.markPresent tag) tag requestedAt := by
  obtain ⟨step, tag, kg, hstep, hevent⟩ := h
  obtain ⟨turn, hturn, rfl⟩ := exists_turn hstep
  rcases (c.before turns k).step_feeds_or_not turn.around turn.rations with
    ⟨hquiet, -⟩ | ⟨state, tag', requestedAt, hasks, hserves⟩
  · exact absurd hevent (hquiet station tag kg)
  · obtain ⟨kg', hevents⟩ := hserves.events
    rw [hevents] at hevent
    have hstation : station = (c.before turns k).station := by
      simp only [List.mem_cons, List.not_mem_nil, reduceCtorEq, false_or, or_false,
        Event.dispensing.injEq] at hevent
      exact hevent.1
    exact ⟨turn, state, tag', requestedAt, hturn, hstation, hasks, hserves⟩

theorem lastFeed?_before_succ_of_not (h : ¬c.Feeds turns k station) :
    (c.before turns (k + 1)).lastFeed? station = (c.before turns k).lastFeed? station := by
  cases hturn : turns[k]? with
  | none => rw [before_succ_of_none hturn]
  | some turn =>
    rw [before_succ hturn]
    rcases (c.before turns k).step_feeds_or_not turn.around turn.rations with
      ⟨-, hsame⟩ | ⟨state, tag, requestedAt, hasks, hserves⟩
    · exact hsame station
    · rw [lastFeed?_of_serves hasks.station hserves, if_neg]
      rintro rfl
      obtain ⟨kg, hevents⟩ := hserves.events
      refine h ⟨_, tag, kg, getElem?_steps_of_turn hturn, ?_⟩
      rw [hevents]
      simp

/-! ### The query of a round -/

/-- A presence query whose answer is evaluated went out in the turn before. -/
theorem exists_query (hstart : c.phase.pending? = none) {turn : Turn ρ} (hturn : turns[k]? = some turn)
    (hphase : (c.before turns k).phase = .awaitPresenceAck requestedAt) :
    ∃ q, k = q + 1 ∧ c.Sends turns q .presenceQuery (c.before turns k).station ∧
      clockAt turns q = requestedAt := by
  cases k with
  | zero =>
    have hphase : c.phase = .awaitPresenceAck requestedAt := hphase
    rw [hphase] at hstart
    cases hstart
  | succ q =>
    obtain ⟨hlt, -⟩ := List.getElem?_eq_some_iff.1 hturn
    have hearlier : turns[q]? = some turns[q] := List.getElem?_eq_getElem (by omega)
    have hpending : (c.before turns (q + 1)).phase.pending? = some (.presenceQuery, requestedAt) := by
      rw [hphase]
      rfl
    rw [before_succ hearlier] at hpending ⊢
    obtain ⟨hframe, htime, hstation⟩ := step_pending? hpending
    refine ⟨q, rfl, ⟨_, getElem?_steps_of_turn hearlier, ?_⟩, ?_⟩
    · rw [hframe, hstation]
    · rw [htime, clockAt_eq hearlier]

theorem sends_iff {frame : Frame} : c.Sends turns k frame station ↔
    k < turns.length ∧ (c.before turns k).phase.request? = some frame ∧
      (c.before turns k).station = station := by
  constructor
  · rintro ⟨step, hstep, hframe⟩
    obtain ⟨turn, hturn, rfl⟩ := exists_turn hstep
    obtain ⟨hk, -⟩ := List.getElem?_eq_some_iff.1 hturn
    exact ⟨hk, frame_eq_some_iff.1 hframe⟩
  · rintro ⟨hk, hrequest⟩
    exact ⟨_, getElem?_steps_of_turn (List.getElem?_eq_getElem hk), frame_eq_some_iff.2 hrequest⟩

theorem Sends.place {frame : Frame} (h : c.Sends turns q frame station) :
    (c.before turns q).phase.place = frame.place :=
  Phase.place_of_request? (sends_iff.1 h).2.1

/-- Until the terminator goes out, each turn goes on within the round. -/
theorem place_add_le (hqk : q ≤ k) (hk : k ≤ turns.length)
    (h : ∀ j other, q ≤ j → j < k → ¬c.Sends turns j .terminator other) :
    (c.before turns q).phase.place + (k - q) ≤ (c.before turns k).phase.place := by
  induction k, hqk using Nat.le_induction with
  | base => simp
  | succ k hqk ih =>
    have hbefore := ih (by omega) fun j other hqj hjk => h j other hqj (by omega)
    have hturn : turns[k]? = some turns[k] := List.getElem?_eq_getElem (by omega)
    rcases place_step (c.before turns k) turns[k].around turns[k].rations with hends | hlt
    · exact absurd ⟨_, getElem?_steps_of_turn hturn, hends⟩ (h k _ hqk (Nat.lt_succ_self k))
    · rw [before_succ hturn]
      omega

/-- The query of the round is the turn before the one that feeds. -/
theorem FeedsAfter.eq_succ (h : c.FeedsAfter turns q k station) : k = q + 1 := by
  obtain ⟨turn, state, tag, requestedAt, hturn, -, hasks, -⟩ := h.feeds.exists_serves
  obtain ⟨hk, -⟩ := List.getElem?_eq_some_iff.1 hturn
  have hopen : ∀ j other, q ≤ j → j < k → ¬c.Sends turns j .terminator other := by
    intro j other hqj hjk hends
    rcases hqj.eq_or_lt with rfl | hlt
    · exact absurd (h.query.place.symm.trans hends.place) (by decide)
    · exact h.sameRound j other hlt hjk hends
  have hplace := place_add_le h.lt.le hk.le hopen
  rw [h.query.place, hasks.phase] at hplace
  have hlt := h.lt
  simp only [Frame.place, Phase.place] at hplace
  omega

/-- A feed follows the one query of its round, which is the one that the station remembers. -/
theorem Feeds.exists_feedsAfter (hstart : c.phase.pending? = none) (h : c.Feeds turns k station) :
    ∃ q, ∃ state : Station, c.FeedsAfter turns q k station ∧
      (c.before turns k).lastFeed? station = state.lastFeed ∧
      state.intervalElapsed (clockAt turns k) c.config.minDispenseIntervalMs = true ∧
      (c.before turns (k + 1)).lastFeed? station =
        some
          (((c.before turns k).lastFeed? station).elim (clockAt turns q)
            (max (clockAt turns q))) := by
  obtain ⟨turn, state, tag, requestedAt, hturn, rfl, hasks, hserves⟩ := h.exists_serves
  obtain ⟨q, rfl, hquery, hasked⟩ := exists_query hstart hturn hasks.phase
  refine ⟨q, state, ⟨Nat.lt_succ_self q, hquery, h, ?_⟩, ?_, ?_, ?_⟩
  · intro j other hqj hjk
    omega
  · rw [lastFeed?, hasks.station]
    rfl
  · rw [clockAt_eq hturn, ← config_before c turns (q + 1)]
    exact hasks.elapsed
  · rw [before_succ hturn, lastFeed?_of_serves hasks.station hserves, if_pos rfl, hasked]

/-! ### What a station remembers -/

/-- The greatest of the readings, none if there is none. -/
def IsLatest (time? : Option Nat) (times : Set Nat) : Prop :=
  match time? with
  | none => times = ∅
  | some time => IsGreatest times time

theorem IsLatest.insert {time? : Option Nat} {times : Set Nat} (h : IsLatest time? times) (time : Nat) :
    IsLatest (some (time?.elim time (max time))) (insert time times) := by
  cases time? with
  | none =>
    obtain rfl : times = ∅ := h
    simp [IsLatest]
  | some latest => exact IsGreatest.insert time h

theorem IsLatest.exists_le {time? : Option Nat} {times : Set Nat} {time : Nat}
    (h : IsLatest time? times) (htime : time ∈ times) :
    ∃ latest, time? = some latest ∧ time ≤ latest := by
  cases time? with
  | none =>
    obtain rfl : times = ∅ := h
    exact absurd htime (Set.notMem_empty time)
  | some latest => exact ⟨latest, rfl, h.2 htime⟩

/-- One more turn adds the query that leads to a feed in it, if there is one. -/
theorem mem_queryTimes_succ {time : Nat} :
    time ∈ c.queryTimes turns (k + 1) station ↔
      (∃ q, c.FeedsAfter turns q k station ∧ clockAt turns q = time) ∨
        time ∈ c.queryTimes turns k station := by
  constructor
  · rintro ⟨q, j, hj, hfeeds, rfl⟩
    rcases Nat.lt_succ_iff_lt_or_eq.1 hj with hlt | rfl
    · exact .inr ⟨q, j, hlt, hfeeds, rfl⟩
    · exact .inl ⟨q, hfeeds, rfl⟩
  · rintro (⟨q, hfeeds, rfl⟩ | ⟨q, j, hj, hfeeds, rfl⟩)
    · exact ⟨q, k, Nat.lt_succ_self k, hfeeds, rfl⟩
    · exact ⟨q, j, hj.trans (Nat.lt_succ_self k), hfeeds, rfl⟩

theorem queryTimes_succ_of_feedsAfter (h : c.FeedsAfter turns q k station) :
    c.queryTimes turns (k + 1) station = insert (clockAt turns q) (c.queryTimes turns k station) := by
  ext time
  rw [mem_queryTimes_succ, Set.mem_insert_iff]
  apply or_congr_left
  constructor
  · rintro ⟨p, hfeeds, rfl⟩
    have hp := hfeeds.eq_succ
    have hq := h.eq_succ
    obtain rfl : p = q := by omega
    rfl
  · rintro rfl
    exact ⟨q, h, rfl⟩

theorem queryTimes_succ_of_not (h : ¬c.Feeds turns k station) :
    c.queryTimes turns (k + 1) station = c.queryTimes turns k station := by
  ext time
  rw [mem_queryTimes_succ]
  refine or_iff_right ?_
  rintro ⟨q, hfeeds, -⟩
  exact h hfeeds.feeds

theorem queryTimes_mono {j : Nat} (hjk : j ≤ k) (station : UInt8) :
    c.queryTimes turns j station ⊆ c.queryTimes turns k station := by
  rintro time ⟨p, i, hi, hfeeds, rfl⟩
  exact ⟨p, i, hi.trans_le hjk, hfeeds, rfl⟩

/-- A station remembers the greatest reading at a query that led to a feed, from the first turn on. -/
theorem isLatest_lastFeed? (hstart : c.phase.pending? = none) (hnone : c.lastFeed? station = none)
    (turns : List (Turn ρ)) (k : Nat) :
    IsLatest ((c.before turns k).lastFeed? station) (c.queryTimes turns k station) := by
  induction k with
  | zero =>
    have hnothing : c.queryTimes turns 0 station = ∅ := by
      ext time
      simp [queryTimes]
    rw [hnothing]
    change IsLatest (c.lastFeed? station) ∅
    rw [hnone]
    rfl
  | succ k ih =>
    by_cases hfeeds : c.Feeds turns k station
    · obtain ⟨q, state, hafter, -, -, hnext⟩ := hfeeds.exists_feedsAfter hstart
      rw [hnext, queryTimes_succ_of_feedsAfter hafter]
      exact ih.insert _
    · rw [lastFeed?_before_succ_of_not hfeeds, queryTimes_succ_of_not hfeeds]
      exact ih

/-! ### Distances -/

/-- Feeds at a station keep their distance, and the station remembers what it takes to see to it. -/
structure Spaced (c : Controller) (turns : List (Turn ρ)) : Prop where
  /-- Every feed is told in a round, and so after one presence query. -/
  query : ∀ k station, c.Feeds turns k station → ∃! q, c.FeedsAfter turns q k station
  apart : ∀ station q k q' k', c.FeedsAfter turns q k station → c.FeedsAfter turns q' k' station →
    k < k' → clockAt turns q + c.config.minDispenseIntervalMs.toNat < clockAt turns k'
  latest : ∀ k station,
    IsLatest ((c.before turns k).lastFeed? station) (c.queryTimes turns k station)
  grows : ∀ j k station earlier, j ≤ k → (c.before turns j).lastFeed? station = some earlier →
    ∃ later, (c.before turns k).lastFeed? station = some later ∧ earlier ≤ later
  changes : ∀ k station,
    (c.before turns (k + 1)).lastFeed? station ≠ (c.before turns k).lastFeed? station →
      c.Feeds turns k station

/-- Whatever the clock reads and whatever else happens, feeds at a station are spaced from the start
on. -/
theorem spaced_start (config : Config) (turns : List (Turn ρ)) : (start config).Spaced turns := by
  have hstart : (start config).phase.pending? = none := rfl
  have hlatest (k : Nat) (station : UInt8) :
      IsLatest (((start config).before turns k).lastFeed? station)
        ((start config).queryTimes turns k station) :=
    isLatest_lastFeed? hstart (lastFeed?_start config station) turns k
  refine ⟨?_, ?_, hlatest, ?_, ?_⟩
  · intro k station hfeeds
    obtain ⟨q, state, hafter, -⟩ := hfeeds.exists_feedsAfter hstart
    refine ⟨q, hafter, ?_⟩
    intro p hp
    have hpk := hp.eq_succ
    have hqk := hafter.eq_succ
    omega
  · intro station q k q' k' hfirst hsecond hlt
    have hmem : clockAt turns q ∈ (start config).queryTimes turns k' station :=
      ⟨q, k, hlt, hfirst, rfl⟩
    obtain ⟨latest, hremembered, hle⟩ := (hlatest k' station).exists_le hmem
    obtain ⟨-, state, -, hstate, helapsed, -⟩ := hsecond.feeds.exists_feedsAfter hstart
    rw [hstate] at hremembered
    rw [Station.intervalElapsed, hremembered, decide_eq_true_eq] at helapsed
    omega
  · intro j k station earlier hjk hearlier
    have hgreatest := hlatest j station
    rw [hearlier] at hgreatest
    exact (hlatest k station).exists_le (queryTimes_mono hjk station hgreatest.1)
  · intro k station hchanged
    by_contra hfeeds
    exact hchanged (lastFeed?_before_succ_of_not hfeeds)

end Controller

end Fodder
