import Fodder.Proofs.Quota
import Fodder.Proofs.Steward.Memory

/-!
# The room of a history cannot be seen

A history forgets its oldest feeds, and its count ends at its room. As long as no schedule splits the
allowance into more rations than there is room for, that changes no answer: an engine that never
forgets a feed decides alike in every run. The bounded engine is at each moment the other one with
its histories cut down to the newest feeds.
-/
namespace Fodder

namespace FeedHistory

/-- Keeps every feed. -/
def append (history : FeedHistory) (feed : Feed) : FeedHistory := history ++ [feed]

end FeedHistory

/-- Where no more rations are unlocked than there is room for, older feeds play no part. -/
theorem Settings.rule_newest {s : Settings} (valid : s.Valid)
    (hle : s.rations.toNat ≤ FeedHistory.capacity) (feeds : FeedHistory) (now : Nat) :
    s.rule (newest FeedHistory.capacity feeds) now = s.rule feeds now := by
  unfold rule
  split
  · rfl
  · cases hwindow : FeedingWindow.containing s now with
    | error error => rfl
    | ok window =>
      have hcontains := FeedingWindow.contains_of_containing valid hwindow
      have hunlocked := FeedingWindow.unlocked_le_rations hcontains valid.rations.1
      have hexpected := FeedingWindow.expectedFeeds_eq_unlocked hcontains valid.rations.1
        (rations_lt_minuteLimit valid)
      have hcount : window.unlocked s.rations.toNat (now / 60) ≤
          FeedHistory.countSince (newest FeedHistory.capacity feeds) window.start ↔
            window.unlocked s.rations.toNat (now / 60) ≤ feeds.countSince window.start := by
        rw [FeedHistory.countSince_newest]
        omega
      simp only [hexpected, hcount]

namespace Cow

/-- The cow with no more feeds than a history has room for. -/
def trimmed (cow : Cow) : Cow := { cow with feeds := newest FeedHistory.capacity cow.feeds }

theorem Fits.trimmed_eq {cow : Cow} (h : cow.Fits) : cow.trimmed = cow := by
  rw [trimmed, newest_of_length_le h.feeds]

theorem flaw?_trimmed (cow : Cow) : cow.trimmed.flaw? = cow.flaw? := by
  unfold flaw?
  rfl

end Cow

namespace Herd

def trimmed (herd : Herd) : Herd := ⟨herd.cows.map Cow.trimmed⟩

variable (herd : Herd)

theorem trimmed_of_fits {herd : Herd} (h : ∀ cow ∈ herd.cows, cow.Fits) : herd.trimmed = herd := by
  have hcows : herd.cows.map Cow.trimmed = herd.cows.map id :=
    List.map_congr_left fun cow hcow => (h cow hcow).trimmed_eq
  rw [trimmed, hcows, List.map_id]

@[simp] theorem size_trimmed : herd.trimmed.size = herd.size := List.length_map ..

@[simp] theorem position?_trimmed (name : String) :
    herd.trimmed.position? name = herd.position? name := by
  rw [position?, trimmed, List.findIdx?_map]
  rfl

theorem wearer?_trimmed (tag : UInt16) :
    herd.trimmed.wearer? tag = (herd.wearer? tag).map fun found => (found.1, found.2.trimmed) := by
  have hcollars : herd.trimmed.cows.map Cow.collar = herd.cows.map Cow.collar := by
    simp [trimmed, Cow.trimmed]
  rw [wearer?_eq, wearer?_eq, hcollars]
  cases (herd.cows.map Cow.collar).findIdx? (· = tag) with
  | none => rfl
  | some index => cases hcow : herd.cows[index]? <;> simp [trimmed, hcow]

@[simp] theorem wornElsewhere_trimmed (tag : UInt16) (place : Option Nat) :
    herd.trimmed.wornElsewhere tag place = herd.wornElsewhere tag place := by
  rw [wornElsewhere, trimmed, List.zipIdx_map, List.any_map]
  rfl

theorem recordFeed_trimmed (index : Nat) (feed : Feed) :
    herd.trimmed.recordFeed index feed =
      (herd.recordFeedBy FeedHistory.append index feed).trimmed := by
  have hcow (cow : Cow) : ({ cow.trimmed with feeds := cow.trimmed.feeds.push feed } : Cow) =
      Cow.trimmed { cow with feeds := cow.feeds.append feed } := by
    simp only [Cow.trimmed, FeedHistory.push, FeedHistory.append, remember_newest]
    rfl
  rw [recordFeed, trimmed, trimmed, Herd.mk.injEq]
  apply List.ext_getElem?
  intro i
  simp only [recordFeedBy, List.getElem?_modify, List.getElem?_map]
  cases herd.cows[i]? with
  | none => simp
  | some cow => by_cases h : index = i <;> simp [h, hcow]

theorem putBack_trimmed (index : Nat) (cow : Cow) :
    herd.trimmed.putBack index cow.trimmed = (herd.putBack index cow).trimmed := by
  simp [putBack, trimmed]

theorem fillFromEnd_trimmed (index : Nat) :
    herd.trimmed.fillFromEnd index = (herd.fillFromEnd index).trimmed := by
  unfold fillFromEnd
  simp only [trimmed, List.getLast?_map]
  cases herd.cows.getLast? <;> simp [List.map_dropLast]

theorem feedsAfter_trimmed (index : Nat) {cow : Cow} (hfits : cow.Fits) :
    herd.trimmed.feedsAfter index cow = newest FeedHistory.capacity (herd.feedsAfter index cow) := by
  unfold feedsAfter
  split
  · simp only [trimmed, List.getElem?_map]
    cases herd.cows[index]? <;> rfl
  · exact (newest_of_length_le hfits.feeds).symm

theorem upsert_trimmed {cow : Cow} (hfits : cow.Fits) :
    herd.trimmed.upsert cow =
      (herd.upsert cow).map fun placed => { placed with herd := placed.herd.trimmed } := by
  have hedited (index : Nat) :
      ({ cow with feeds := herd.trimmed.feedsAfter index cow } : Cow) =
        Cow.trimmed { cow with feeds := herd.feedsAfter index cow } := by
    rw [feedsAfter_trimmed herd index hfits]
    rfl
  have hcreated : (⟨herd.trimmed.cows ++ [cow]⟩ : Herd) = (⟨herd.cows ++ [cow]⟩ : Herd).trimmed := by
    simp [trimmed, hfits.trimmed_eq]
  unfold upsert
  simp only [position?_trimmed, wornElsewhere_trimmed, size_trimmed]
  cases cow.flaw? with
  | some flaw => rfl
  | none =>
    dsimp only
    split
    · rfl
    · cases herd.position? cow.name with
      | some index =>
        dsimp only
        rw [hedited, putBack_trimmed]
        rfl
      | none =>
        dsimp only
        split
        · rfl
        · rw [hcreated]
          rfl

theorem remove_trimmed (name : String) :
    herd.trimmed.remove name =
      (herd.remove name).map fun removed => (removed.1.trimmed, removed.2) := by
  unfold remove
  rw [position?_trimmed]
  cases herd.position? name with
  | none => rfl
  | some index =>
    dsimp only
    rw [fillFromEnd_trimmed, size_trimmed]
    rfl

theorem enrol_trimmed (cow : Cow) : herd.trimmed.enrol cow.trimmed = (herd.enrol cow).trimmed := by
  have haccepts : herd.trimmed.accepts cow.trimmed = herd.accepts cow := by
    unfold accepts
    rw [size_trimmed, Cow.flaw?_trimmed]
    have hname : cow.trimmed.name = cow.name := rfl
    have hworn : (herd.trimmed.cows.any (·.collar = cow.trimmed.collar)) =
        herd.cows.any (·.collar = cow.collar) := by
      rw [trimmed, List.any_map]
      rfl
    rw [hname, position?_trimmed, hworn]
  unfold enrol
  rw [haccepts]
  split
  · simp [trimmed]
  · rfl

theorem ofRecords_trimmed (records : List Cow) :
    ofRecords (records.map Cow.trimmed) = (ofRecords records).trimmed := by
  suffices ∀ herd : Herd, (records.map Cow.trimmed).foldl enrol herd.trimmed =
      (records.foldl enrol herd).trimmed from this {}
  induction records with
  | nil => exact fun _ => rfl
  | cons cow records ih =>
    intro herd
    rw [List.map_cons, List.foldl_cons, List.foldl_cons, enrol_trimmed]
    exact ih (herd.enrol cow)

end Herd

/-! ## Two engines -/

/-- One engine is the other with its histories cut down to what there is room for. -/
structure Engine.Trims (bounded unbounded : Engine) : Prop where
  herd : bounded.herd = unbounded.herd.trimmed
  settings : bounded.settings = unbounded.settings

namespace Engine.Trims

variable {bounded unbounded : Engine} (h : bounded.Trims unbounded)

include h

/-- Both engines decide alike and note the same feed. -/
theorem allocate (valid : bounded.settings.Valid)
    (hle : bounded.settings.rations.toNat ≤ FeedHistory.capacity) (now : Nat) (tag : UInt16)
    (station : UInt8) :
    (bounded.allocateBy FeedHistory.push now tag station).1 =
        (unbounded.allocateBy FeedHistory.append now tag station).1 ∧
      Trims (bounded.allocateBy FeedHistory.push now tag station).2
        (unbounded.allocateBy FeedHistory.append now tag station).2 := by
  rw [h.settings] at valid hle
  unfold allocateBy
  rw [h.herd, h.settings, Herd.wearer?_trimmed]
  cases unbounded.herd.wearer? tag with
  | none => exact ⟨rfl, h⟩
  | some found =>
    obtain ⟨slot, cow⟩ := found
    have hrule : unbounded.settings.rule cow.trimmed.feeds now =
        unbounded.settings.rule cow.feeds now := Settings.rule_newest valid hle cow.feeds now
    simp only [Option.map_some, hrule]
    cases unbounded.settings.rule cow.feeds now with
    | error error => exact ⟨rfl, h⟩
    | ok ruling =>
      cases ruling with
      | met => exact ⟨rfl, h⟩
      | due minute =>
        refine ⟨rfl, ?_, h.settings⟩
        show bounded.herd.recordFeed slot ⟨station, minute⟩ = _
        rw [h.herd]
        exact Herd.recordFeed_trimmed unbounded.herd slot ⟨station, minute⟩

theorem upserted {cow : Cow} (hfits : cow.Fits) :
    (bounded.upserted cow).Trims (unbounded.upserted cow) := by
  unfold Engine.upserted
  rw [h.herd, Herd.upsert_trimmed unbounded.herd hfits]
  cases unbounded.herd.upsert cow with
  | error error => exact ⟨h.herd, h.settings⟩
  | ok placed => exact ⟨rfl, h.settings⟩

theorem deleted (name : String) : (bounded.deleted name).Trims (unbounded.deleted name) := by
  unfold Engine.deleted
  rw [h.herd, Herd.remove_trimmed]
  cases unbounded.herd.remove name with
  | error error => exact ⟨h.herd, h.settings⟩
  | ok removed => exact ⟨rfl, h.settings⟩

theorem scheduled (settings : Settings) :
    (bounded.scheduled settings).Trims (unbounded.scheduled settings) := by
  unfold Engine.scheduled
  cases settings.check with
  | error error => exact h
  | ok checked => exact ⟨h.herd, rfl⟩

theorem restarted : bounded.restarted.Trims unbounded.restarted where
  herd := by
    rw [Engine.restarted, Engine.restarted, h.herd]
    exact Herd.ofRecords_trimmed unbounded.herd.cows
  settings := by
    rw [Engine.restarted, Engine.restarted, h.settings]

theorem request (asked : Steward.Request) :
    (asked.effect bounded).Trims (asked.effect unbounded) := by
  cases asked with
  | upsert cow fits => exact h.upserted fits
  | upsertJson json =>
    simp only [Steward.Request.effect]
    cases hjson : Cow.ofJson json with
    | error error => exact h
    | ok cow => exact h.upserted (Steward.fits_of_ofJson hjson)
  | delete name => exact h.deleted name
  | clear => exact ⟨rfl, h.settings⟩
  | setSettings settings fits => exact h.scheduled settings
  | setSettingsJson json =>
    simp only [Steward.Request.effect]
    cases Settings.ofJson json with
    | error error => exact h
    | ok settings => exact h.scheduled settings

/-- One operation on both sides: the answer is the same, and the engines stay alike. -/
theorem operation (valid : bounded.settings.Valid)
    (hle : bounded.settings.rations.toNat ≤ FeedHistory.capacity)
    (operation : Steward.Operation) :
    operation.answerBy? FeedHistory.push bounded =
        operation.answerBy? FeedHistory.append unbounded ∧
      Trims (operation.effect FeedHistory.push bounded)
        (operation.effect FeedHistory.append unbounded) := by
  cases operation with
  | allocate now tag station =>
    obtain ⟨hanswer, hnoted⟩ := h.allocate valid hle now tag station
    exact ⟨congrArg some hanswer, hnoted⟩
  | flush => exact ⟨rfl, h.herd, h.settings⟩
  | request asked => exact ⟨rfl, h.request asked⟩
  | reboot => exact ⟨rfl, h.restarted⟩

end Engine.Trims

namespace Steward

/-- No schedule in force in the course of operations has more rations than a history has room for. -/
def rationsFit {φ : Type} [FaultSource φ] (s : Steward φ) : List Operation → Bool
  | [] => true
  | operation :: operations =>
    s.engine.settings.rations.toNat ≤ FeedHistory.capacity &&
      rationsFit (operation.apply s) operations

theorem trims_run {s : Steward Unit} {unbounded : Engine}
    (h : Backed True s.engine s.device.flash) (hsound : s.engine.Sound)
    (htrims : s.engine.Trims unbounded) {operations : List Operation}
    (hflushed : startsFlushed s operations = true) (hrations : rationsFit s operations = true) :
    s.answers operations = answersBy FeedHistory.append unbounded operations ∧
      (s.run operations).engine.Trims (runBy FeedHistory.append unbounded operations) := by
  induction operations generalizing s unbounded with
  | nil => exact ⟨rfl, htrims⟩
  | cons operation operations ih =>
    rw [startsFlushed, Bool.and_eq_true] at hflushed
    rw [rationsFit, Bool.and_eq_true, decide_eq_true_eq] at hrations
    obtain ⟨hanswer, hstep⟩ := htrims.operation hsound.settings hrations.1 operation
    rw [← operation.engine_apply h hsound hflushed.1] at hstep
    obtain ⟨hanswers, hrun⟩ := ih (h.apply_faultless operation) (sound_apply hsound operation)
      hstep hflushed.2 hrations.2
    rw [answers, answersBy, hanswers, operation.answer?_eq, hanswer]
    exact ⟨rfl, hrun⟩

/-- On a device without faults, all answers are those of an engine that works in memory alone, and of
one that in addition never forgets a feed. -/
theorem answers_eq_unbounded (flash : Flash) (operations : List Operation)
    (hflushed : startsFlushed (boot (Device.sound flash)) operations = true)
    (hrations : rationsFit (boot (Device.sound flash)) operations = true) :
    let s := boot (Device.sound flash)
    (s.answers operations = answersBy FeedHistory.push s.engine operations ∧
        (s.run operations).engine = runBy FeedHistory.push s.engine operations) ∧
      s.answers operations = answersBy FeedHistory.append s.engine operations ∧
      (s.run operations).engine.herd =
        (runBy FeedHistory.append s.engine operations).herd.trimmed := by
  intro s
  have hbacked : Backed True s.engine s.device.flash := backed_boot (.inl trivial)
  have hsound : s.engine.Sound := sound_boot _
  have htrims : s.engine.Trims s.engine := ⟨(Herd.trimmed_of_fits hsound.fits).symm, rfl⟩
  obtain ⟨hanswers, hrun⟩ := trims_run hbacked hsound htrims hflushed hrations
  exact ⟨answers_run_eq hbacked hsound hflushed, hanswers, hrun.herd⟩

/-- Anna eats all day long on two days, and the clock goes back to the first one: her history has
lost feeds of that day by then. -/
theorem answers_eq_unbounded_twoDays :
    let s := boot (Device.sound strayRecord)
    let settings : Settings := ⟨[0], 32⟩
    let fits : settings.Fits := show 1 ≤ Settings.maxResets by decide
    let operations : List Operation :=
      [.flush, .request (.setSettings settings fits)] ++
        List.replicate 23 (.allocate 1728057600 1 0) ++ [.flush, .reboot] ++
        List.replicate 23 (.allocate 1728144000 1 1) ++ [.allocate 1728057600 1 0]
    let unbounded := runBy FeedHistory.append s.engine operations
    startsFlushed s operations = true ∧ rationsFit s operations = true ∧
      (s.run operations).engine.herd.cows.map (·.feeds.length) = [32, 0] ∧
      unbounded.herd.cows.map (·.feeds.length) = [44, 0] ∧
      s.answers operations = answersBy FeedHistory.append s.engine operations := by
  intro s settings fits operations unbounded
  have hflushed : startsFlushed s operations = true := by decide +kernel
  have hrations : rationsFit s operations = true := by decide +kernel
  refine ⟨hflushed, hrations, by decide +kernel, by decide +kernel, ?_⟩
  exact (answers_eq_unbounded strayRecord operations hflushed hrations).2.1

end Steward

end Fodder
