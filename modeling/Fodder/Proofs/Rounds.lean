import Fodder.Proofs.Course

/-!
# Rounds

However the plant behaves, the steps of the controller fall into rounds. Each round is for the next
station in turn and shows the same on the wire, but for the feed command: that one goes out exactly
if a feed was told. So the waits of a round add up to what the configuration says.
-/
namespace Fodder

variable {ρ : Type}

/-! ## What a round shows -/

/-- Whether a ration goes out. -/
def Event.isDispensing : Event → Bool
  | .dispensing .. => true
  | _ => false

namespace Step

def feeds (step : Step ρ) : Bool := step.events.any Event.isDispensing

theorem feeds_iff {step : Step ρ} :
    step.feeds = true ↔ ∃ station tag kg, .dispensing station tag kg ∈ step.events := by
  rw [feeds, List.any_eq_true]
  constructor
  · rintro ⟨event, hevent, hdispensing⟩
    cases event with
    | dispensing station tag kg => exact ⟨station, tag, kg, hevent⟩
    | _ => cases hdispensing
  · rintro ⟨station, tag, kg, hevent⟩
    exact ⟨_, hevent, rfl⟩

/-- The bytes that the step tries to send. -/
def bytes? (step : Step ρ) : Option (List UInt8) :=
  step.frame.map fun (frame, station) => frame.bytes station

end Step

/-- What is seen of a step: the frame that it tries to send, with the station it is for, how long it
waits, and whether it tells of a feed. -/
structure Beat where
  frame : Option (Frame × UInt8)
  wait : UInt32
  feeds : Bool
  deriving DecidableEq, Repr

def Step.beat (step : Step ρ) : Beat := ⟨step.frame, step.wait, step.feeds⟩

namespace Beat

variable (config : Config) (station : UInt8)

/-- A frame goes out, and what is configured for it is waited for. -/
def sent (frame : Frame) : Beat where
  frame := some (frame, station)
  wait := match frame with
    | .groupQuery1 => config.groupQuery1TimeoutMs
    | .groupQuery2 => config.groupQuery2TimeoutMs
    | .presenceQuery => config.presenceTimeoutMs
    | .feedCommand => config.feedTimeoutMs
    | .terminator => config.terminatorTimeoutMs
  feeds := false

/-- Something is evaluated at once. -/
def evaluated (feeds : Bool) : Beat := ⟨none, 0, feeds⟩

def opening : List Beat :=
  [sent config station .groupQuery1, sent config station .groupQuery2,
    sent config station .presenceQuery]

/-- What stands between the evaluation of the presence query and the terminator. -/
def feeding (fed : Bool) : List Beat :=
  if fed then [sent config station .feedCommand, evaluated false] else []

/-- A complete round. -/
def round (fed : Bool) : List Beat :=
  opening config station ++ evaluated fed :: feeding config station fed ++
    [sent config station .terminator]

/-- What a round has shown when a phase begins. Whether it fed is settled by then or does not matter
yet, but for the last phase. -/
def shown (fed : Bool) : Phase → List Beat
  | .sendGroupQuery1 => []
  | .sendGroupQuery2 => [sent config station .groupQuery1]
  | .sendPresenceQuery => [sent config station .groupQuery1, sent config station .groupQuery2]
  | .awaitPresenceAck _ => opening config station
  | .sendFeedCommand _ => opening config station ++ [evaluated true]
  | .awaitFeedAck _ _ => opening config station ++ [evaluated true, sent config station .feedCommand]
  | .sendTerminator => opening config station ++ evaluated fed :: feeding config station fed

/-- What is shown when a phase begins is the beginning of a round, and not yet all of it. -/
theorem exists_round_eq_append (fed : Bool) (phase : Phase) :
    ∃ fed' rest, rest ≠ [] ∧ round config station fed' = shown config station fed phase ++ rest := by
  cases phase with
  | sendGroupQuery1 | sendGroupQuery2 | sendPresenceQuery | awaitPresenceAck requestedAt
  | sendTerminator => exact ⟨fed, _, List.cons_ne_nil _ _, rfl⟩
  | sendFeedCommand tag | awaitFeedAck requestedAt tag =>
    exact ⟨true, _, List.cons_ne_nil _ _, rfl⟩

end Beat

/-- The steps of a complete round for a station. -/
structure IsRound (config : Config) (station : UInt8) (steps : List (Step ρ)) : Prop where
  beats : steps.map Step.beat = Beat.round config station (steps.any Step.feeds)
  bytes : steps.filterMap Step.bytes? =
    [[0x60, 0x52, 0x52], [0x61, 0x52, 0x52], [0x40 + station, 0x52, 0x34, 0x56]] ++
      (if steps.any Step.feeds then [[0x40 + station, 0x57, 0x34, 0x56]] else []) ++
      [[if station % 2 = 0 then 0x01 else 0x11, 0x31, 0x04, 0x35]]
  duration : (steps.map (·.wait.toNat)).sum =
    config.idleRoundMs + if steps.any Step.feeds then config.feedTimeoutMs.toNat else 0

/-- What is seen of the steps tells all about a round. -/
theorem isRound_of_beats {config : Config} {station : UInt8} {fed : Bool} {steps : List (Step ρ)}
    (h : steps.map Step.beat = Beat.round config station fed) : IsRound config station steps := by
  have hfed : steps.any Step.feeds = fed := by
    calc steps.any Step.feeds = (steps.map Step.beat).any Beat.feeds := by rw [List.any_map]; rfl
      _ = fed := by rw [h]; cases fed <;> rfl
  have hbytes : steps.filterMap Step.bytes? = (steps.map Step.beat).filterMap fun beat =>
      beat.frame.map fun (frame, station) => frame.bytes station := by
    rw [List.filterMap_map]
    rfl
  have hwaits : steps.map (·.wait.toNat) = (steps.map Step.beat).map (·.wait.toNat) := by
    rw [List.map_map]
    rfl
  refine ⟨by rw [hfed, h], ?_, ?_⟩
  · rw [hbytes, h, hfed]
    cases fed <;> rfl
  · rw [hwaits, h, hfed]
    cases fed <;>
      simp [Beat.round, Beat.opening, Beat.feeding, Beat.sent, Beat.evaluated,
        Config.idleRoundMs] <;> omega

namespace Controller

variable {c : Controller}

/-! ## One step -/

theorem beat_send (c : Controller) (frame : Frame) (after : Controller) (wireDown : Bool)
    (rations : ρ) :
    (c.send frame after wireDown rations).beat = Beat.sent c.config c.station frame := by
  cases frame <;> cases wireDown <;> rfl

variable [RationSource ρ]

/-- Within a round every step adds to what the round has shown. -/
theorem shown_step (hphase : c.phase ≠ .sendTerminator) (fed : Bool) (around : Surroundings)
    (rations : ρ) :
    (c.step around rations).controller.station = c.station ∧
      ∃ fed', Beat.shown c.config c.station fed' (c.step around rations).controller.phase =
        Beat.shown c.config c.station fed c.phase ++ [(c.step around rations).beat] := by
  cases hc : c.phase with
  | sendGroupQuery1 | sendGroupQuery2 | sendPresenceQuery | sendFeedCommand tag =>
    rw [step, hc]
    refine ⟨rfl, fed, ?_⟩
    rw [beat_send]
    rfl
  | awaitPresenceAck requestedAt =>
    rcases step_of_awaitPresenceAck hc around rations with hends | ⟨state, tag, -, hserves⟩
    · obtain ⟨state, -, hcontroller⟩ := hends.controller
      have hfeeds : (c.step around rations).feeds = false := by
        rw [← Bool.not_eq_true, Step.feeds_iff]
        rintro ⟨station, tag, kg, hevent⟩
        exact hends.events station tag kg hevent
      rw [hcontroller, Step.beat, hends.frame, hends.wait, hfeeds]
      exact ⟨rfl, false, rfl⟩
    · obtain ⟨kg, hevents⟩ := hserves.events
      rw [hserves.controller, Step.beat, hserves.frame, hserves.wait, Step.feeds, hevents]
      exact ⟨rfl, true, rfl⟩
  | awaitFeedAck requestedAt tag =>
    rw [step, hc]
    refine ⟨rfl, true, ?_⟩
    dsimp only
    split_ifs <;> rfl
  | sendTerminator => exact absurd hc hphase

/-- The terminator completes what a round shows. -/
theorem round_of_sendTerminator (hphase : c.phase = .sendTerminator) (fed : Bool)
    (around : Surroundings) (rations : ρ) :
    (c.step around rations).controller = c.nextRound ∧
      Beat.round c.config c.station fed =
        Beat.shown c.config c.station fed c.phase ++ [(c.step around rations).beat] := by
  rw [step, hphase]
  refine ⟨rfl, ?_⟩
  rw [beat_send]
  rfl

/-! ## Runs -/

/-- How many stations are served in turn. -/
def polled (config : Config) : Nat := max 1 (min 4 config.stationCount.toNat)

theorem polled_pos (config : Config) : 0 < polled config := by
  rw [polled]
  omega

theorem polled_le (config : Config) : polled config ≤ 4 := by
  rw [polled]
  omega

theorem toNat_stationCount_start (config : Config) :
    (start config).config.stationCount.toNat = polled config := by
  have hcount : (start config).config.stationCount = max 1 (min 4 config.stationCount) := rfl
  rw [hcount, UInt8.toNat_max, UInt8.toNat_min]
  rfl

/-- Where a run stands: these rounds are complete, and the controller is as far in the next one as
the unfinished steps show. -/
structure Progress (config : Config) (c : Controller) (rounds : List (List (Step ρ)))
    (unfinished : List (Step ρ)) : Prop where
  configured : c.config = (start config).config
  table : c.stations.length = Config.maxStations
  station : c.station = UInt8.ofNat (rounds.length % polled config)
  complete : ∀ k round, rounds[k]? = some round →
    ∃ fed, round.map Step.beat = Beat.round c.config (UInt8.ofNat (k % polled config)) fed
  shown : ∃ fed, unfinished.map Step.beat = Beat.shown c.config c.station fed c.phase

variable {config : Config} {rounds : List (List (Step ρ))} {unfinished : List (Step ρ)}

section

omit [RationSource ρ]

theorem progress_start (config : Config) :
    Progress config (start config) ([] : List (List (Step ρ))) [] where
  configured := rfl
  table := rfl
  station := by
    rw [List.length_nil, Nat.zero_mod]
    rfl
  complete k round h := by cases h
  shown := ⟨false, rfl⟩

theorem Progress.toNat_station (h : Progress config c rounds unfinished) :
    c.station.toNat = rounds.length % polled config := by
  have hlt := Nat.mod_lt rounds.length (polled_pos config)
  have hle := polled_le config
  rw [h.station, UInt8.toNat_ofNat']
  exact Nat.mod_eq_of_lt (by omega)

/-- The station of the controller is one of those that it serves and remembers. -/
theorem Progress.station_lt (h : Progress config c rounds unfinished) :
    c.station.toNat < polled config ∧ (c.station? c.station).isSome := by
  have hlt : c.station.toNat < polled config := by
    rw [h.toNat_station]
    exact Nat.mod_lt _ (polled_pos config)
  have hremembered : c.station.toNat < c.stations.length := by
    rw [h.table]
    exact hlt.trans_le (polled_le config)
  refine ⟨hlt, ?_⟩
  rw [station?, List.getElem?_eq_getElem hremembered]
  rfl

/-- The next round is for the next station, after the last one for the first. -/
theorem Progress.station_nextRound (h : Progress config c rounds unfinished) :
    c.nextRound.station = UInt8.ofNat ((rounds.length + 1) % polled config) := by
  have hlt := Nat.mod_lt rounds.length (polled_pos config)
  have hlt' := Nat.mod_lt (rounds.length + 1) (polled_pos config)
  have hle := polled_le config
  have hstation : (c.station + 1).toNat = rounds.length % polled config + 1 := by
    have hroom : rounds.length % polled config + 1 < 256 := by omega
    rw [UInt8.toNat_add, h.toNat_station]
    exact Nat.mod_eq_of_lt hroom
  have hnext : c.nextRound.station = (c.station + 1) % c.config.stationCount := rfl
  apply UInt8.toNat_inj.1
  rw [hnext, UInt8.toNat_mod, hstation, h.configured, toNat_stationCount_start, Nat.mod_add_mod,
    UInt8.toNat_ofNat']
  exact (Nat.mod_eq_of_lt (by omega)).symm

end

/-- The terminator makes the unfinished steps a complete round. -/
theorem Progress.ends (h : Progress config c rounds unfinished) (hphase : c.phase = .sendTerminator)
    (around : Surroundings) (rations : ρ) :
    Progress config (c.step around rations).controller
      (rounds ++ [unfinished ++ [c.step around rations]]) [] := by
  obtain ⟨hconfig, htable⟩ := config_step c around rations
  obtain ⟨fed, hshown⟩ := h.shown
  obtain ⟨hnext, hround⟩ := round_of_sendTerminator hphase fed around rations
  refine ⟨hconfig.trans h.configured, htable.trans h.table, ?_, ?_, ?_⟩
  · rw [hnext, List.length_append]
    exact h.station_nextRound
  · intro k round hk
    rw [hconfig]
    rcases Nat.lt_trichotomy k rounds.length with hlt | rfl | hlt
    · rw [List.getElem?_append_left hlt] at hk
      exact h.complete k round hk
    · rw [List.getElem?_concat_length] at hk
      obtain rfl := Option.some.inj hk
      refine ⟨fed, ?_⟩
      rw [List.map_append, hshown, ← h.station, hround]
      rfl
    · rw [List.getElem?_eq_none (by simpa using hlt)] at hk
      cases hk
  · rw [hnext]
    exact ⟨false, rfl⟩

/-- Every other step adds to the unfinished ones. -/
theorem Progress.goesOn (h : Progress config c rounds unfinished) (hphase : c.phase ≠ .sendTerminator)
    (around : Surroundings) (rations : ρ) :
    Progress config (c.step around rations).controller rounds
      (unfinished ++ [c.step around rations]) := by
  obtain ⟨hconfig, htable⟩ := config_step c around rations
  obtain ⟨fed, hshown⟩ := h.shown
  obtain ⟨hstation, fed', hstep⟩ := shown_step hphase fed around rations
  refine ⟨hconfig.trans h.configured, htable.trans h.table, hstation.trans h.station, ?_, ?_⟩
  · rw [hconfig]
    exact h.complete
  · refine ⟨fed', ?_⟩
    rw [hconfig, hstation, hstep, List.map_append, hshown]
    rfl

theorem exists_progress (config : Config) (turns : List (Turn ρ)) :
    ∃ rounds unfinished, (start config).steps turns = rounds.flatten ++ unfinished ∧
      Progress config ((start config).after turns) rounds unfinished := by
  induction turns using List.reverseRecOn with
  | nil => exact ⟨[], [], rfl, progress_start config⟩
  | append_singleton turns turn ih =>
    obtain ⟨rounds, unfinished, hsteps, hprogress⟩ := ih
    rw [steps_append, after_append, hsteps]
    by_cases hphase : ((start config).after turns).phase = .sendTerminator
    · refine ⟨_, [], ?_, hprogress.ends hphase turn.around turn.rations⟩
      simp [steps]
    · refine ⟨rounds, _, ?_, hprogress.goesOn hphase turn.around turn.rations⟩
      simp [steps]

/-- Whatever a run brings, its steps are complete rounds and the beginning of one more, the k-th for
the station `k % n`, and the station is always one that the controller remembers. -/
theorem exists_rounds (config : Config) (turns : List (Turn ρ)) :
    let c := start config
    let n := max 1 (min 4 config.stationCount.toNat)
    ∃ (rounds : List (List (Step ρ))) (unfinished : List (Step ρ)),
      c.steps turns = rounds.flatten ++ unfinished ∧
      (∀ k round, rounds[k]? = some round → IsRound config (UInt8.ofNat (k % n)) round) ∧
      (∃ fed rest, rest ≠ [] ∧
        Beat.round config (UInt8.ofNat (rounds.length % n)) fed = unfinished.map Step.beat ++ rest) ∧
      (c.after turns).station.toNat < n ∧
      ((c.after turns).station? (c.after turns).station).isSome := by
  intro c n
  obtain ⟨rounds, unfinished, hsteps, hprogress⟩ := exists_progress config turns
  refine ⟨rounds, unfinished, hsteps, ?_, ?_, hprogress.station_lt⟩
  · intro k round hk
    obtain ⟨fed, hbeats⟩ := hprogress.complete k round hk
    rw [hprogress.configured] at hbeats
    exact isRound_of_beats hbeats
  · obtain ⟨fed, hshown⟩ := hprogress.shown
    obtain ⟨fed', rest, hrest, hround⟩ :=
      Beat.exists_round_eq_append (start config).config (c.after turns).station fed (c.after turns).phase
    refine ⟨fed', rest, hrest, ?_⟩
    rw [hshown, hprogress.configured, ← hround, hprogress.station]
    rfl

end Controller

end Fodder
