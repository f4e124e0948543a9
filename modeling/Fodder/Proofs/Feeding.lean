import Fodder.Plant
import Fodder.Proofs.Controller
import Fodder.Proofs.Quota
import Fodder.Proofs.Share
import Fodder.Proofs.Steward.Sound

/-!
# What is told and what is noted

The engine notes a feed before the controller decides whether there is anything to dispense. The two
agree in a step unless the share of the cow that is due rounds to nothing: then the feed is noted and
the controller tells of a quota that is met. An allowance that small passes all checks of a record.
-/
namespace Fodder

open Binary

namespace Herd

/-- In a sound herd a feed goes to the cow with the collar, and to no other. -/
theorem Sound.cows_recordFeed {herd : Herd} (h : herd.Sound) {tag : UInt16} {slot : Nat} {cow : Cow}
    (hwearer : herd.wearer? tag = some (slot, cow)) (feed : Feed) :
    (herd.recordFeed slot feed).cows = herd.cows.map fun cow =>
      if cow.collar = tag then { cow with feeds := cow.feeds.push feed } else cow := by
  apply List.ext_getElem?
  intro i
  rw [getElem?_recordFeed, List.getElem?_map]
  cases hi : herd.cows[i]? with
  | none => rfl
  | some other =>
    have hslot : slot = i ↔ other.collar = tag := by
      constructor
      · rintro rfl
        rw [getElem?_of_wearer? hwearer, Option.some.injEq] at hi
        exact hi ▸ collar_of_wearer? hwearer
      · intro hcollar
        exact h.collar_inj (getElem?_of_wearer? hwearer) hi
          ((collar_of_wearer? hwearer).trans hcollar.symm)
    simp only [Option.map_some, hslot]

/-- In a sound herd a collar that leads to a cow stands in one place only. -/
theorem Sound.existsUnique_of_wearer? {herd : Herd} (h : herd.Sound) {tag : UInt16} {slot : Nat}
    {cow : Cow} (hwearer : herd.wearer? tag = some (slot, cow)) :
    ∃! place : Nat, (herd.cows[place]?).map Cow.collar = some tag := by
  have hcow := getElem?_of_wearer? hwearer
  have hcollar := collar_of_wearer? hwearer
  refine ⟨slot, by simp [hcow, hcollar], ?_⟩
  intro place hplace
  obtain ⟨other, hother, hsame⟩ := Option.map_eq_some_iff.1 hplace
  exact h.collar_inj hother hcow (hsame.trans hcollar.symm)

end Herd

namespace Engine

/-- The cow with the collar is due a ration, and her allowance is at most half of the least positive
number for each of the rations of a window. -/
def RoundsAway (engine : Engine) (now : Nat) (tag : UInt16) : Prop :=
  ∃ slot cow minute, engine.herd.wearer? tag = some (slot, cow) ∧
    engine.settings.rule cow.feeds now = .ok (.due minute) ∧
    2 * single.units cow.ration.magnitude ≤ engine.settings.rations.toNat

variable {engine : Engine} {now : Nat} {tag : UInt16} {station : UInt8} {kg : Amount}

/-- What is dispensed is the share of the cow with the collar, whose feed is noted. -/
theorem allocate_eq_dispense (h : (engine.allocate now tag station).1 = .ok (.dispense kg)) :
    ∃ slot cow minute, engine.herd.wearer? tag = some (slot, cow) ∧
      engine.settings.rule cow.feeds now = .ok (.due minute) ∧
      kg = cow.ration.share engine.settings.rations ∧
      (engine.allocate now tag station).2 = engine.recordFeed slot cow.name ⟨station, minute⟩ := by
  unfold allocate at h ⊢
  split at h
  · cases h
  · rename_i slot cow hwearer
    split at h
    · cases h
    · cases h
    · rename_i minute hrule
      refine ⟨slot, cow, minute, hwearer, hrule, ?_, ?_⟩
      · simpa using h.symm
      · rfl

/-- An allocation that dispenses nothing in the first place notes nothing. -/
theorem allocate_eq_self
    (h : ∀ kg, (engine.allocate now tag station).1 ≠ .ok (.dispense kg)) :
    (engine.allocate now tag station).2 = engine := by
  unfold allocate at h ⊢
  split
  · rfl
  · rename_i slot cow hwearer
    simp only [hwearer] at h
    split
    · rfl
    · rfl
    · rename_i minute hrule
      simp only [hrule] at h
      exact absurd rfl (h _)

/-- A dispensed share is positive unless it rounds away. -/
theorem Sound.isPositive_of_allocate (hsound : engine.Sound)
    (h : (engine.allocate now tag station).1 = .ok (.dispense kg)) :
    kg.isPositive = true ↔ ¬engine.RoundsAway now tag := by
  obtain ⟨slot, cow, minute, hwearer, hrule, rfl, -⟩ := allocate_eq_dispense h
  obtain ⟨hfinite, hpositive⟩ :=
    (hsound.herd.valid cow (List.mem_of_getElem? (Herd.getElem?_of_wearer? hwearer))).ration
  rw [Single.isPositive_share_iff hfinite hpositive hsound.settings.rations.1, ← Nat.not_le,
    not_iff_not]
  constructor
  · exact fun hsmall => ⟨slot, cow, minute, hwearer, hrule, hsmall⟩
  · rintro ⟨slot', cow', minute', hwearer', -, hsmall⟩
    rw [hwearer, Option.some.injEq, Prod.mk.injEq] at hwearer'
    exact hwearer'.2 ▸ hsmall

/-- Where a share rounds away, it is dispensed all the same. -/
theorem exists_dispense_of_roundsAway (h : engine.RoundsAway now tag) (station : UInt8) :
    ∃ kg, (engine.allocate now tag station).1 = .ok (.dispense kg) := by
  obtain ⟨slot, cow, minute, hwearer, hrule, -⟩ := h
  exact ⟨cow.ration.share engine.settings.rations, by simp only [allocate, hwearer, hrule]⟩

end Engine

namespace Plant

variable {φ : Type}

/-- Whether it was told that a ration goes out at the station for the collar. -/
def Observed.dispenses (observed : Observed) (station : UInt8) (tag : UInt16) : Bool :=
  observed.events.any fun
    | .dispensing station' tag' _ => station' = station ∧ tag' = tag
    | _ => false

/-- What a step tells of feeding is what the histories show: the cow whose collar a ration goes out
for gets one entry, at this station and minute, and no other cow gets any. -/
structure Agrees (before : Plant φ) (observed : Observed) (after : Plant φ) : Prop where
  station : ∀ station tag, observed.dispenses station tag = true →
    station = before.controller.station
  phase : ∀ tag, observed.dispenses before.controller.station tag = true ↔
    after.controller.phase = .sendFeedCommand tag
  worn : ∀ tag, observed.dispenses before.controller.station tag = true →
    ∃! place : Nat, (before.steward.engine.herd.cows[place]?).map Cow.collar = some tag
  histories : ∃ minute : UInt32,
    (∀ tag, observed.dispenses before.controller.station tag = true →
      minute.toNat = before.wall / 60) ∧
    after.steward.engine.herd.cows = before.steward.engine.herd.cows.map fun cow =>
      if observed.dispenses before.controller.station cow.collar then
        { cow with feeds := cow.feeds.push ⟨before.controller.station, minute⟩ }
      else cow
  positive : ∀ call ∈ observed.calls, ∀ kg,
    (before.steward.engine.allocate before.wall call.1 call.2).1 = .ok (.dispense kg) →
      kg.isPositive = true

section Steps

variable {before after plant : Plant φ} {observed : Observed} {station : UInt8} {tag : UInt16}
  {kg : Amount}

theorem Observed.dispenses_iff :
    observed.dispenses station tag = true ↔ ∃ kg, .dispensing station tag kg ∈ observed.events := by
  rw [dispenses, List.any_eq_true]
  constructor
  · rintro ⟨event, hevent, htold⟩
    split at htold
    · rename_i kg
      obtain ⟨rfl, rfl⟩ := of_decide_eq_true htold
      exact ⟨kg, hevent⟩
    · cases htold
  · rintro ⟨kg, hevent⟩
    exact ⟨_, hevent, by simp⟩

/-- Where nothing is told and nothing is noted, the two agree. -/
theorem agrees_of_silent
    (hevents : ∀ (station : UInt8) (tag : UInt16) (kg : Amount),
      .dispensing station tag kg ∉ observed.events)
    (hphase : ∀ tag, after.controller.phase ≠ .sendFeedCommand tag)
    (hengine : after.steward.engine = before.steward.engine)
    (hpositive : ∀ call ∈ observed.calls, ∀ kg,
      (before.steward.engine.allocate before.wall call.1 call.2).1 = .ok (.dispense kg) →
        kg.isPositive = true) : before.Agrees observed after := by
  have hsilent (station : UInt8) (tag : UInt16) : ¬observed.dispenses station tag = true := by
    rw [Observed.dispenses_iff]
    rintro ⟨kg, hkg⟩
    exact hevents station tag kg hkg
  refine ⟨?_, ?_, ?_, ⟨0, ?_, ?_⟩, hpositive⟩
  · exact fun station tag htold => absurd htold (hsilent station tag)
  · exact fun tag => iff_of_false (hsilent _ tag) (hphase tag)
  · exact fun tag htold => absurd htold (hsilent _ tag)
  · exact fun tag htold => absurd htold (hsilent _ tag)
  · simp [hengine, hsilent]

/-- Where a ration of more than nothing is told of and noted, the two agree. -/
theorem agrees_of_told (hsound : before.steward.engine.Sound)
    (hevents : observed.events = [.cowPresent before.controller.station tag,
      .dispensing before.controller.station tag kg])
    (hcalls : observed.calls = [(tag, before.controller.station)])
    (hphase : after.controller.phase = .sendFeedCommand tag)
    (hanswer : (before.steward.engine.allocate before.wall tag before.controller.station).1 =
      .ok (.dispense kg))
    (hengine : after.steward.engine =
      (before.steward.engine.allocate before.wall tag before.controller.station).2)
    (hpositive : kg.isPositive = true) : before.Agrees observed after := by
  obtain ⟨slot, cow, minute, hwearer, hrule, -, hnoted⟩ := Engine.allocate_eq_dispense hanswer
  have htold (station : UInt8) (other : UInt16) : observed.dispenses station other = true ↔
      station = before.controller.station ∧ other = tag := by
    simp [Observed.dispenses_iff, hevents]
  refine ⟨?_, ?_, ?_, ⟨minute, ?_, ?_⟩, ?_⟩
  · exact fun station other h => ((htold station other).1 h).1
  · intro other
    rw [htold, hphase]
    simp [eq_comm]
  · intro other h
    obtain ⟨-, rfl⟩ := (htold _ other).1 h
    exact hsound.herd.existsUnique_of_wearer? hwearer
  · exact fun other h => (Settings.rule_eq_due_cases hrule).1
  · rw [hengine, hnoted]
    simp only [htold, true_and]
    exact hsound.herd.cows_recordFeed hwearer _
  · intro call hcall other hother
    rw [hcalls, List.mem_singleton] at hcall
    subst hcall
    rw [hanswer] at hother
    cases hother
    exact hpositive

/-- Where the round is dismissed after an allocation, the two agree unless a share rounded away. -/
theorem agrees_dismissed_iff (hsound : before.steward.engine.Sound) {event : Event}
    (hevent : ∀ station tag kg, event ≠ .dispensing station tag kg)
    (hevents : observed.events = [.cowPresent before.controller.station tag, event])
    (hcalls : observed.calls = [(tag, before.controller.station)])
    (hphase : after.controller.phase = .sendTerminator)
    (hengine : after.steward.engine =
      (before.steward.engine.allocate before.wall tag before.controller.station).2)
    (hnothing : ∀ kg,
      (before.steward.engine.allocate before.wall tag before.controller.station).1 =
        .ok (.dispense kg) → kg.isPositive = false) :
    before.Agrees observed after ↔ ¬before.steward.engine.RoundsAway before.wall tag := by
  constructor
  · intro hagrees hrounds
    obtain ⟨kg, hanswer⟩ :=
      Engine.exists_dispense_of_roundsAway hrounds before.controller.station
    have hpositive := hagrees.positive (tag, before.controller.station) (by simp [hcalls]) kg hanswer
    rw [hnothing kg hanswer] at hpositive
    cases hpositive
  · intro hrounds
    have hrefused (kg : Amount) :
        (before.steward.engine.allocate before.wall tag before.controller.station).1 ≠
          .ok (.dispense kg) := by
      intro hanswer
      have hpositive := (hsound.isPositive_of_allocate hanswer).2 hrounds
      rw [hnothing kg hanswer] at hpositive
      cases hpositive
    refine agrees_of_silent ?_ ?_ ?_ ?_
    · intro station tag kg h
      rw [hevents] at h
      simp [(hevent _ _ _).symm] at h
    · rw [hphase]
      exact fun tag h => by cases h
    · exact hengine.trans (Engine.allocate_eq_self hrefused)
    · intro call hcall kg hanswer
      rw [hcalls, List.mem_singleton] at hcall
      subst hcall
      exact absurd hanswer (hrefused kg)

/-- A step over the engine, as long as no answers are fixed in advance. -/
theorem act_of_script (h : plant.script = none) :
    let step := plant.controller.step plant.around (⟨plant.steward.engine, plant.wall⟩ : Desk)
    plant.act.1.events = step.events ∧ plant.act.1.calls = step.calls ∧
      plant.act.2.controller = step.controller ∧
      plant.act.2.steward.engine = step.rations.engine := by
  intro step
  simp only [act, h, observe]
  exact ⟨rfl, rfl, rfl, rfl⟩

theorem agrees_act (hscript : plant.script = none) (hsound : plant.steward.engine.Sound) :
    plant.Agrees plant.act.1 plant.act.2 ↔
      ∀ call ∈ plant.act.1.calls, ¬plant.steward.engine.RoundsAway plant.wall call.1 := by
  obtain ⟨hevents, hcalls, hcontroller, hengine⟩ := act_of_script hscript
  rcases plant.controller.step_cases plant.around (⟨plant.steward.engine, plant.wall⟩ : Desk) with
    hquiet | ⟨state, tag, requestedAt, hasks⟩
  · rw [hquiet.calls] at hcalls
    refine iff_of_true (agrees_of_silent ?_ ?_ ?_ ?_) ?_
    · rw [hevents]
      exact hquiet.events
    · rw [hcontroller]
      exact hquiet.phase
    · rw [hengine, hquiet.rations]
    · simp [hcalls]
    · simp [hcalls]
  · rw [Controller.step_of_asks _ hasks] at hevents hcalls hcontroller hengine
    rcases plant.controller.consult_cases (state.markPresent tag) tag requestedAt
        (⟨plant.steward.engine, plant.wall⟩ : Desk) with
      ⟨kg, hanswer, hpositive, hstep⟩ | ⟨hnothing, event, hevent, hstep⟩
    · rw [hstep] at hevents hcalls hcontroller hengine
      have hphase : plant.act.2.controller.phase = .sendFeedCommand tag := by
        rw [hcontroller]
        rfl
      refine iff_of_true (agrees_of_told hsound hevents hcalls hphase hanswer hengine hpositive) ?_
      rw [hcalls]
      intro call hcall
      obtain rfl := List.mem_singleton.1 hcall
      exact (hsound.isPositive_of_allocate hanswer).1 hpositive
    · rw [hstep] at hevents hcalls hcontroller hengine
      have hphase : plant.act.2.controller.phase = .sendTerminator := by
        rw [hcontroller]
        rfl
      rw [hcalls, List.forall_mem_singleton]
      exact agrees_dismissed_iff hsound hevent hevents hcalls hphase hengine hnothing

end Steps

/-! ## Runs -/

section Runs

variable [FaultSource φ]

/-- Whatever happens to a plant. -/
inductive Move
  /-- A request, an allocation, a flush or a new start of the engine. -/
  | operate (operation : Steward.Operation)
  /-- The clocks, the acknowledgements and the wire become what they will. -/
  | surround (acks : AckHistory) (wall clock : Nat) (wireDown : Bool)
  /-- A step of the controller. -/
  | act

def after (plant : Plant φ) : Move → Plant φ
  | .operate operation => { plant with steward := operation.apply plant.steward }
  | .surround acks wall clock wireDown => { plant with acks, wall, clock, wireDown }
  | .act => plant.act.2

def run (plant : Plant φ) (moves : List Move) : Plant φ := moves.foldl after plant

theorem script_after {plant : Plant φ} (h : plant.script = none) (move : Move) :
    (plant.after move).script = none := by
  cases move with
  | operate operation => exact h
  | surround acks wall clock wireDown => exact h
  | act => simp only [after, act, h]

theorem script_run {plant : Plant φ} (h : plant.script = none) (moves : List Move) :
    (plant.run moves).script = none := by
  induction moves generalizing plant with
  | nil => exact h
  | cons move moves ih => exact ih (script_after h move)

theorem sound_after {plant : Plant φ} (hscript : plant.script = none)
    (h : plant.steward.engine.Sound) (move : Move) : (plant.after move).steward.engine.Sound := by
  cases move with
  | operate operation => exact Steward.sound_apply h operation
  | surround acks wall clock wireDown => exact h
  | act =>
    obtain ⟨-, -, -, hengine⟩ := act_of_script hscript
    show plant.act.2.steward.engine.Sound
    rw [hengine]
    rcases plant.controller.rations_step plant.around (⟨plant.steward.engine, plant.wall⟩ : Desk) with
      hsame | ⟨tag, hallocated⟩
    · rw [hsame]
      exact h
    · rw [hallocated]
      exact h.allocate plant.wall tag plant.controller.station

theorem sound_run {plant : Plant φ} (hscript : plant.script = none)
    (h : plant.steward.engine.Sound) (moves : List Move) :
    (plant.run moves).steward.engine.Sound := by
  induction moves generalizing plant with
  | nil => exact h
  | cons move moves ih => exact ih (script_after hscript move) (sound_after hscript h move)

/-- After any start and any run, whatever fails in it, a step agrees with the histories unless it
asks about a cow whose share rounds away. -/
theorem agrees_act_run_iff (device : Device φ) (config : Config) (wall clock : Nat)
    (moves : List Move) :
    let plant := (start device config wall clock none).run moves
    plant.Agrees plant.act.1 plant.act.2 ↔
      ∀ call ∈ plant.act.1.calls, ¬plant.steward.engine.RoundsAway plant.wall call.1 := by
  intro plant
  have hscript : plant.script = none := script_run rfl moves
  have hsound : plant.steward.engine.Sound := sound_run rfl (Steward.sound_boot device) moves
  exact agrees_act hscript hsound

/-- A cow with the least allowance there is comes to the first station: her feed is noted, but she
gets nothing. -/
theorem not_agrees_leastAllowance :
    let cow : Cow := { Settings.hungryCow with ration := ⟨1⟩ }
    let fits : cow.Fits := ⟨by decide, by decide, by decide⟩
    let plant := (start (Device.sound {}) {} 1728057600 0 none).run
      [.operate (.request (.upsert cow fits)), .act, .act, .act,
        .surround [⟨20, 17⟩] 1728057600 80 false]
    plant.steward.engine.herd.cows = [cow] ∧
      plant.act.1.events = [.cowPresent 0 17, .quotaMet 0 17] ∧
      plant.act.2.controller.phase = .sendTerminator ∧
      plant.act.2.steward.engine.herd.cows = [{ cow with feeds := [⟨0, 28800960⟩] }] ∧
      ¬plant.Agrees plant.act.1 plant.act.2 := by
  intro cow fits plant
  refine ⟨by decide +kernel, by decide +kernel, by decide +kernel, by decide +kernel, ?_⟩
  intro hagrees
  have hcall : (17, 0) ∈ plant.act.1.calls := by decide +kernel
  have hanswer : (plant.steward.engine.allocate plant.wall 17 0).1 = .ok (.dispense ⟨0⟩) := by
    decide +kernel
  have hpositive := hagrees.positive (17, 0) hcall ⟨0⟩ hanswer
  exact absurd hpositive (by decide)

end Runs

end Plant

end Fodder
