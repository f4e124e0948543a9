import Fodder.Proofs.Feeding
import Fodder.Proofs.FeedingWindow.Openings

/-!
# Refusals

A collar is refused for one of three reasons, in this order: no cow wears it, the clock is not set,
or minutes since the epoch cannot express the window of the instant. The schedule in force makes
sense, so nothing else that the window could be refused for ever happens. Only a ration that is
dispensed leaves a trace: one feed of one cow.
-/
namespace Fodder

/-! ## Histories -/

/-- A feed is appended; once the history is full, the oldest one makes room. -/
theorem FeedHistory.push_eq {history : FeedHistory} (h : history.length ≤ capacity) (feed : Feed) :
    history.push feed =
      if history.length < capacity then history ++ [feed] else history.tail ++ [feed] := by
  rw [push, remember]
  split_ifs with hroom
  · exact newest_of_length_le (by rw [List.length_append]; exact hroom)
  · have hfull : history.length = capacity := le_antisymm h (Nat.not_lt.1 hroom)
    obtain ⟨first, rest, rfl⟩ := List.exists_cons_of_length_eq_add_one hfull
    have hdropped : (first :: rest ++ [feed]).length - capacity = 1 := by
      rw [List.length_append, hfull]
      rfl
    rw [newest, hdropped]
    rfl

/-! ## Rulings -/

namespace Settings

variable {s : Settings} {feeds : FeedHistory} {now : Nat}

/-- Minutes since the epoch cannot express the latest opening, which precedes the epoch, or the
instant itself. -/
def OutOfRange (s : Settings) (now : Nat) : Prop :=
  ∃ opened : ℤ, IsGreatest {t : ℤ | s.OpensAt t ∧ t ≤ now} opened ∧
    (opened < 0 ∨ 2 ^ 32 - 1 < now / 60)

/-- Out of range, no window is found or its minute comes too late. -/
theorem rule_of_outOfRange (valid : s.Valid) (hset : now ≠ 0) (h : s.OutOfRange now) :
    s.rule feeds now = .error .invalidWindow := by
  have hlimit : FeedingWindow.minuteLimit = 4294967296 := rfl
  obtain ⟨opened, hlatest, hrange⟩ := h
  obtain ⟨found, hfound, ⟨hearly, -, window, hwindow, -⟩ | ⟨-, herror⟩⟩ :=
    FeedingWindow.exists_latest_opening valid now
  · obtain rfl := hlatest.unique hfound
    have hlate : FeedingWindow.minuteLimit ≤ now / 60 := by omega
    simp only [rule, if_neg hset, hwindow, if_pos hlate]
  · simp only [rule, if_neg hset, herror]

/-- Within the range, a cow is due a ration or has had what is unlocked. -/
theorem exists_rule_of_not_outOfRange (valid : s.Valid) (hset : now ≠ 0) (h : ¬s.OutOfRange now)
    (feeds : FeedHistory) : ∃ ruling, s.rule feeds now = .ok ruling := by
  have hlimit : FeedingWindow.minuteLimit = 4294967296 := rfl
  obtain ⟨opened, hlatest, hcases⟩ := FeedingWindow.exists_latest_opening valid now
  have hreached := hlatest.1.2
  have hrange : 0 ≤ opened ∧ now / 60 ≤ 2 ^ 32 - 1 := by
    by_contra hout
    exact h ⟨opened, hlatest, by omega⟩
  rcases hcases with ⟨-, -, window, hwindow, -⟩ | ⟨hnever, -⟩
  · have hexpected := FeedingWindow.expectedFeeds_eq_unlocked
      (FeedingWindow.contains_of_containing valid hwindow) valid.rations.1
      (rations_lt_minuteLimit valid)
    have hearly : ¬FeedingWindow.minuteLimit ≤ now / 60 := by omega
    simp only [rule, if_neg hset, hwindow, if_neg hearly, hexpected]
    split_ifs <;> exact ⟨_, rfl⟩
  · omega

/-- From the second day of the epoch on there was an opening since the epoch. -/
theorem not_outOfRange (valid : s.Valid) (hfrom : 86400 ≤ now) (hto : now < 60 * 2 ^ 32) :
    ¬s.OutOfRange now := by
  rintro ⟨opened, hlatest, hrange⟩
  obtain ⟨hour, rest, hs⟩ := List.exists_cons_of_ne_nil valid.nonempty
  have hmem : hour ∈ s.resets := hs ▸ List.mem_cons_self
  have hhour := valid.hours hour hmem
  have hfirst : (3600 * hour.toNat : ℤ) ≤ opened :=
    hlatest.2 ⟨⟨hour, hmem, by omega⟩, by omega⟩
  omega

end Settings

/-! ## Answers -/

namespace Engine

variable {engine : Engine} {now : Nat} {tag : UInt16} {station : UInt8}

/-- Some cow wears the collar. -/
def Knows (engine : Engine) (tag : UInt16) : Prop := ∃ cow ∈ engine.herd.cows, cow.collar = tag

/-- What a collar is refused for. Each reason counts only where those before it do not. -/
def Refuses (engine : Engine) (now : Nat) (tag : UInt16) : AllocationError → Prop
  | .unknownTag => ¬engine.Knows tag
  | .clockNotSet => engine.Knows tag ∧ now = 0
  | .invalidWindow => engine.Knows tag ∧ now ≠ 0 ∧ engine.settings.OutOfRange now

theorem Sound.wearer?_eq_none_iff (h : engine.Sound) :
    engine.herd.wearer? tag = none ↔ ¬engine.Knows tag := by
  rw [Option.eq_none_iff_forall_ne_some, Knows, not_exists]
  constructor
  · rintro hnone cow ⟨hcow, rfl⟩
    obtain ⟨slot, hwearer⟩ := h.herd.exists_wearer? hcow
    exact hnone (slot, cow) hwearer
  · rintro hunknown ⟨slot, cow⟩ hwearer
    exact hunknown cow ⟨List.mem_of_getElem? (Herd.getElem?_of_wearer? hwearer),
      Herd.collar_of_wearer? hwearer⟩

/-- There is an error exactly for a reason to refuse, and it says which. -/
theorem Sound.allocate_eq_error_iff (h : engine.Sound) {error : AllocationError} :
    (engine.allocate now tag station).1 = .error error ↔ engine.Refuses now tag error := by
  cases hwearer : engine.herd.wearer? tag with
  | none =>
    have hunknown := h.wearer?_eq_none_iff.1 hwearer
    simp only [Engine.allocate, hwearer]
    cases error <;> simp [Refuses, hunknown]
  | some found =>
    obtain ⟨slot, cow⟩ := found
    have hknown : engine.Knows tag := by
      by_contra hunknown
      rw [h.wearer?_eq_none_iff.2 hunknown] at hwearer
      cases hwearer
    simp only [Engine.allocate, hwearer]
    by_cases hset : now = 0
    · simp only [Settings.rule, if_pos hset]
      cases error <;> simp [Refuses, hknown, hset]
    · by_cases hrange : engine.settings.OutOfRange now
      · simp only [Settings.rule_of_outOfRange h.settings hset hrange]
        cases error <;> simp [Refuses, hknown, hset, hrange]
      · obtain ⟨ruling, hrule⟩ :=
          Settings.exists_rule_of_not_outOfRange h.settings hset hrange cow.feeds
        simp only [hrule]
        cases ruling <;> cases error <;> simp [Refuses, hknown, hset, hrange]

/-- A known collar is answered from the second day of the epoch on, as long as minutes last. -/
theorem Sound.exists_allocation (h : engine.Sound) (hknown : engine.Knows tag)
    (hfrom : 86400 ≤ now) (hto : now < 60 * 2 ^ 32) :
    ∃ allocation, (engine.allocate now tag station).1 = .ok allocation := by
  cases hanswer : (engine.allocate now tag station).1 with
  | ok allocation => exact ⟨allocation, rfl⟩
  | error error =>
    have hrefuses := h.allocate_eq_error_iff.1 hanswer
    cases error with
    | unknownTag => exact absurd hknown hrefuses
    | clockNotSet =>
      have hzero := hrefuses.2
      omega
    | invalidWindow => exact absurd hrefuses.2.2 (Settings.not_outOfRange h.settings hfrom hto)

end Engine

/-! ## What is left behind -/

namespace Steward

variable {φ : Type}

/-- One feed of the cow in a slot is noted, in its history, in the index and as pending; the rest of
the engine and the device are as before. -/
structure Notes (before after : Steward φ) (slot : Nat) (cow : Cow) (feed : Feed) : Prop where
  cows : ∀ i : Nat, after.engine.herd.cows[i]? =
    if i = slot then
      some { cow with
        feeds :=
          if cow.feeds.length < 32 then cow.feeds ++ [feed] else cow.feeds.tail ++ [feed] }
    else before.engine.herd.cows[i]?
  recent : after.engine.recent =
    remember RecentFeeds.capacity before.engine.recent (RecentFeeds.entry cow.name feed)
  pending : ∀ i : Nat, i ∈ after.engine.pending ↔ i = slot ∨ i ∈ before.engine.pending
  settings : after.engine.settings = before.engine.settings
  device : after.device = before.device

theorem notes_recordFeed {s : Steward φ} (h : s.engine.Sound) {slot : Nat} {cow : Cow}
    (hcow : s.engine.herd.cows[slot]? = some cow) (feed : Feed) :
    s.Notes { s with engine := s.engine.recordFeed slot cow.name feed } slot cow feed where
  cows i := by
    have hfits := h.fits cow (List.mem_of_getElem? hcow)
    refine (Herd.getElem?_recordFeed _ slot feed i).trans ?_
    by_cases heq : i = slot
    · rw [if_pos heq, heq, hcow, Option.map_some, if_pos rfl, FeedHistory.push_eq hfits.feeds]
      rfl
    · rw [if_neg heq]
      simp only [if_neg (Ne.symm heq), Option.map_id_fun']
      rfl
  recent := by
    have hfits := h.fits cow (List.mem_of_getElem? hcow)
    exact if_neg (Nat.not_lt.2 hfits.name)
  pending i := Engine.mem_insertSlot
  settings := rfl
  device := rfl

/-- What an allocation answers and what it leaves behind. -/
structure Judges (s : Steward φ) (now : Nat) (tag : UInt16) (station : UInt8)
    (answer : Except AllocationError Allocation) (after : Steward φ) : Prop where
  refused : ∀ error, answer = .error error ↔ s.engine.Refuses now tag error
  latest : ∃ opened : ℤ, IsGreatest {t : ℤ | s.engine.settings.OpensAt t ∧ t ≤ now} opened
  regular : s.engine.Knows tag → 86400 ≤ now → now < 60 * 2 ^ 32 → ∃ allocation, answer = .ok allocation
  silent : (∀ kg, answer ≠ .ok (.dispense kg)) → after = s
  fed : ∀ kg, answer = .ok (.dispense kg) → ∃ (slot : Nat) (cow : Cow) (minute : UInt32),
    s.engine.herd.cows[slot]? = some cow ∧ cow.collar = tag ∧ minute.toNat = now / 60 ∧
      s.Notes after slot cow ⟨station, minute⟩

/-- After any start and any run, whatever is stored and whatever fails: a collar is refused exactly
for the reasons there are, an answer other than a ration changes nothing at all, and a ration one
history, its entry in the index and its slot. -/
theorem judges_run_boot [FaultSource φ] (device : Device φ) (operations : List Operation)
    (now : Nat) (tag : UInt16) (station : UInt8) :
    let s := (boot device).run operations
    s.Judges now tag station (s.engine.allocate now tag station).1
      ((Operation.allocate now tag station).apply s) := by
  intro s
  have hsound : s.engine.Sound := sound_run (sound_boot device) operations
  obtain ⟨opened, hlatest, -⟩ := FeedingWindow.exists_latest_opening hsound.settings now
  refine ⟨fun error => hsound.allocate_eq_error_iff, ⟨opened, hlatest⟩,
    hsound.exists_allocation, fun hnone => ?_, fun kg hanswer => ?_⟩
  · rw [Operation.apply, Engine.allocate_eq_self hnone]
  · obtain ⟨slot, cow, minute, hwearer, hrule, -, hnoted⟩ := Engine.allocate_eq_dispense hanswer
    have hcow := Herd.getElem?_of_wearer? hwearer
    refine ⟨slot, cow, minute, hcow, Herd.collar_of_wearer? hwearer,
      (Settings.rule_eq_due_cases hrule).1, ?_⟩
    rw [Operation.apply, hnoted]
    exact notes_recordFeed hsound hcow ⟨station, minute⟩

end Steward

end Fodder
