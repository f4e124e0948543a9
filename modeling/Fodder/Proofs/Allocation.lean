import Fodder.Engine
import Fodder.Proofs.Herd.Sound

/-!
# Allocations and the herd

An allocation leaves the engine alone or adds a feed to one cow. The cow keeps its place, its name
and its collar, so the table stays sound and every other collar leads where it led before.
-/
namespace Fodder

namespace Herd

variable {herd : Herd} {tag : UInt16} {slot : Nat} {cow : Cow}

/-! ## Feeds -/

theorem getElem?_recordFeed (herd : Herd) (index : Nat) (feed : Feed) (i : Nat) :
    (herd.recordFeed index feed).cows[i]? = herd.cows[i]?.map fun cow =>
      if index = i then { cow with feeds := cow.feeds.push feed } else cow := by
  unfold recordFeed
  rw [List.getElem?_modify]
  by_cases h : index = i
  · simp only [if_pos h]
    rfl
  · simp only [if_neg h]
    rfl

/-- Whatever does not look at the feeds of a cow is the same after a feed. -/
theorem map_recordFeed {α : Type} {f : Cow → α}
    (hf : ∀ (cow : Cow) (feeds : FeedHistory), f { cow with feeds } = f cow) (herd : Herd)
    (index : Nat) (feed : Feed) : (herd.recordFeed index feed).cows.map f = herd.cows.map f := by
  apply List.ext_getElem?
  intro i
  rw [List.getElem?_map, List.getElem?_map, getElem?_recordFeed, Option.map_map]
  congr 1
  funext cow
  by_cases h : index = i <;> simp [h, hf]

/-- A cow of the herd after a feed is one of the herd before it, but for its history. -/
theorem exists_of_mem_recordFeed {index : Nat} {feed : Feed}
    (h : cow ∈ (herd.recordFeed index feed).cows) :
    ∃ old ∈ herd.cows, cow = old ∨ cow = { old with feeds := old.feeds.push feed } := by
  obtain ⟨i, hi⟩ := List.mem_iff_getElem?.1 h
  rw [getElem?_recordFeed, Option.map_eq_some_iff] at hi
  obtain ⟨old, hold, heq⟩ := hi
  refine ⟨old, List.mem_of_getElem? hold, ?_⟩
  split_ifs at heq
  · exact .inr heq.symm
  · exact .inl heq.symm

theorem fits_recordFeed (h : ∀ cow ∈ herd.cows, cow.Fits) (index : Nat) (feed : Feed) :
    ∀ cow ∈ (herd.recordFeed index feed).cows, cow.Fits := by
  intro cow hcow
  obtain ⟨old, hold, rfl | rfl⟩ := exists_of_mem_recordFeed hcow
  · exact h cow hold
  · exact ⟨(h old hold).name, (h old hold).earTag, length_remember_le _ _ _⟩

theorem size_recordFeed (herd : Herd) (index : Nat) (feed : Feed) :
    (herd.recordFeed index feed).size = herd.size :=
  List.length_modify ..

theorem Sound.recordFeed (h : herd.Sound) (index : Nat) (feed : Feed) :
    (herd.recordFeed index feed).Sound where
  size := by
    rw [size_recordFeed]
    exact h.size
  valid cow hcow := by
    obtain ⟨old, hold, rfl | rfl⟩ := exists_of_mem_recordFeed hcow
    · exact h.valid cow hold
    · exact { h.valid old hold with }
  names := by
    unfold Herd.names
    rw [map_recordFeed fun _ _ => rfl]
    exact h.names
  collars := by
    rw [map_recordFeed fun _ _ => rfl]
    exact h.collars

/-! ## Collars -/

theorem wearer?_eq_some (h : herd.wearer? tag = some (slot, cow)) :
    herd.cows.findIdx? (·.collar = tag) = some slot ∧ herd.cows[slot]? = some cow := by
  simp only [wearer?, Option.bind_eq_bind, Option.bind_eq_some_iff, Option.pure_def,
    Option.some.injEq, Prod.mk.injEq] at h
  obtain ⟨index, hfind, other, hother, rfl, rfl⟩ := h
  exact ⟨hfind, hother⟩

theorem getElem?_of_wearer? (h : herd.wearer? tag = some (slot, cow)) :
    herd.cows[slot]? = some cow :=
  (wearer?_eq_some h).2

theorem collar_of_wearer? (h : herd.wearer? tag = some (slot, cow)) : cow.collar = tag := by
  obtain ⟨hfind, hcow⟩ := wearer?_eq_some h
  obtain ⟨hlt, worn, -⟩ := List.findIdx?_eq_some_iff_getElem.1 hfind
  rw [List.getElem?_eq_getElem hlt, Option.some.injEq] at hcow
  simpa [hcow] using worn

theorem wearer?_eq (herd : Herd) (tag : UInt16) :
    herd.wearer? tag = ((herd.cows.map Cow.collar).findIdx? (· = tag)).bind fun index =>
      herd.cows[index]?.map (index, ·) := by
  simp only [wearer?, List.findIdx?_map, Option.bind_eq_bind, Option.pure_def]
  congr 1
  funext index
  cases herd.cows[index]? <;> rfl

/-- A feed changes the history of the cow in its slot and nothing else that a collar leads to. -/
theorem wearer?_recordFeed (h : herd.wearer? tag = some (slot, cow)) (index : Nat) (feed : Feed) :
    (herd.recordFeed index feed).wearer? tag =
      some (slot, if index = slot then { cow with feeds := cow.feeds.push feed } else cow) := by
  obtain ⟨hfind, hcow⟩ := wearer?_eq_some h
  have hfound : (herd.cows.map Cow.collar).findIdx? (· = tag) = some slot := by
    rw [List.findIdx?_map]
    exact hfind
  rw [wearer?_eq, map_recordFeed fun _ _ => rfl, hfound, Option.bind_some, getElem?_recordFeed, hcow]
  rfl

/-- In a sound herd a collar leads to the cow that wears it. -/
theorem Sound.exists_wearer? (h : herd.Sound) (hcow : cow ∈ herd.cows) :
    ∃ slot, herd.wearer? cow.collar = some (slot, cow) := by
  obtain ⟨place, hplace⟩ := List.mem_iff_getElem?.1 hcow
  have hfound : (herd.cows.map Cow.collar).findIdx? (· = cow.collar) = some place := by
    refine List.findIdx?_eq_some_iff_getElem.2 ?_
    obtain ⟨hlt, hat⟩ := List.getElem?_eq_some_iff.1 hplace
    refine ⟨by rwa [List.length_map], by simp [hat], fun j hj hworn => ?_⟩
    rw [List.getElem_map, decide_eq_true_eq] at hworn
    have := h.collar_inj (List.getElem?_eq_getElem (hj.trans hlt)) hplace hworn
    omega
  refine ⟨place, ?_⟩
  rw [wearer?_eq, hfound, Option.bind_some, hplace, Option.map_some]

/-- In a sound herd no other place could have been meant by a collar. -/
theorem Sound.wearer?_eq_some_iff (h : herd.Sound) :
    herd.wearer? tag = some (slot, cow) ↔ herd.cows[slot]? = some cow ∧ cow.collar = tag := by
  constructor
  · intro hwearer
    exact ⟨getElem?_of_wearer? hwearer, collar_of_wearer? hwearer⟩
  · rintro ⟨hcow, rfl⟩
    obtain ⟨place, hwearer⟩ := h.exists_wearer? (List.mem_of_getElem? hcow)
    obtain rfl := h.collar_inj hcow (getElem?_of_wearer? hwearer) rfl
    exact hwearer

end Herd

/-- Whether an answer lets the cow eat. -/
def isDispense : Except AllocationError Allocation → Bool
  | .ok (.dispense _) => true
  | _ => false

/-- What is known of the clock and the window when a ration is due. -/
theorem Settings.rule_eq_due_cases {s : Settings} {feeds : FeedHistory} {now : Nat} {minute : UInt32}
    (h : s.rule feeds now = .ok (.due minute)) :
    minute.toNat = now / 60 ∧ ∃ window expected, FeedingWindow.containing s now = .ok window ∧
      window.expectedFeeds (now / 60) s.rations.toNat = .ok expected ∧
      feeds.countSince window.start < expected := by
  rw [rule] at h
  split at h
  · cases h
  · split at h
    · cases h
    · rename_i window hwindow
      dsimp only at h
      split at h
      · cases h
      · rename_i inRange
        split at h
        · cases h
        · rename_i expected hexpected
          split at h
          · cases h
          · rename_i hlt
            obtain rfl : UInt32.ofNat (now / 60) = minute := by simpa using h
            refine ⟨?_, window, expected, hwindow, hexpected, Nat.not_le.1 hlt⟩
            rw [UInt32.toNat_ofNat']
            exact Nat.mod_eq_of_lt (by simpa [FeedingWindow.minuteLimit] using inRange)

namespace Engine

variable {engine : Engine} {tag : UInt16} {slot : Nat} {cow : Cow} {now : Nat} {station : UInt8}

/-- Either a feed is noted for the cow or nothing happens. -/
theorem allocate_of_wearer? (h : engine.herd.wearer? tag = some (slot, cow)) (now : Nat)
    (station : UInt8) :
    (∃ minute, engine.settings.rule cow.feeds now = .ok (.due minute) ∧
        isDispense (engine.allocate now tag station).1 = true ∧
        (engine.allocate now tag station).2 = engine.recordFeed slot cow.name ⟨station, minute⟩) ∨
      (isDispense (engine.allocate now tag station).1 = false ∧
        (engine.allocate now tag station).2 = engine) := by
  simp only [allocate, h]
  cases hrule : engine.settings.rule cow.feeds now with
  | error error => exact .inr ⟨rfl, rfl⟩
  | ok ruling =>
    cases ruling with
    | due minute => exact .inl ⟨minute, rfl, rfl, rfl⟩
    | met => exact .inr ⟨rfl, rfl⟩

/-- Everything that an allocation can do to the engine. -/
theorem allocate_cases (engine : Engine) (now : Nat) (tag : UInt16) (station : UInt8) :
    (engine.allocate now tag station).2 = engine ∨ ∃ slot cow minute,
      engine.herd.cows[slot]? = some cow ∧ minute.toNat = now / 60 ∧
        (engine.allocate now tag station).2 = engine.recordFeed slot cow.name ⟨station, minute⟩ := by
  cases hwearer : engine.herd.wearer? tag with
  | none =>
    left
    simp only [allocate, hwearer]
  | some found =>
    obtain ⟨slot, cow⟩ := found
    rcases allocate_of_wearer? hwearer now station with ⟨minute, hdue, -, hnoted⟩ | ⟨-, hsame⟩
    · exact .inr ⟨slot, cow, minute, Herd.getElem?_of_wearer? hwearer,
        (Settings.rule_eq_due_cases hdue).1, hnoted⟩
    · exact .inl hsame

theorem mem_insertSlot {slot i : Nat} {slots : List Nat} :
    i ∈ insertSlot slot slots ↔ i = slot ∨ i ∈ slots := by
  induction slots with
  | nil => simp [insertSlot]
  | cons other rest ih =>
    unfold insertSlot
    split_ifs with hlt heq
    · simp
    · simp [heq]
    · simp only [List.mem_cons, ih]
      tauto

/-- A visit with another collar leaves a cow alone. -/
theorem wearer?_allocate_of_ne (h : engine.herd.wearer? tag = some (slot, cow)) {other : UInt16}
    (hne : other ≠ tag) (now : Nat) (station : UInt8) :
    (engine.allocate now other station).2.settings = engine.settings ∧
      (engine.allocate now other station).2.herd.wearer? tag = some (slot, cow) := by
  cases hother : engine.herd.wearer? other with
  | none => simp only [allocate, hother, h, and_self]
  | some found =>
    obtain ⟨slot', cow'⟩ := found
    rcases allocate_of_wearer? hother now station with ⟨minute, -, -, heq⟩ | ⟨-, heq⟩
    · rw [heq]
      refine ⟨rfl, ?_⟩
      have hslot : slot' ≠ slot := by
        rintro rfl
        have hsame := (Herd.getElem?_of_wearer? hother).symm.trans (Herd.getElem?_of_wearer? h)
        rw [Option.some.injEq] at hsame
        exact hne ((Herd.collar_of_wearer? hother).symm.trans
          (hsame ▸ Herd.collar_of_wearer? h))
      rw [recordFeed, Herd.wearer?_recordFeed h, if_neg hslot]
    · rw [heq]
      exact ⟨rfl, h⟩

end Engine

end Fodder
