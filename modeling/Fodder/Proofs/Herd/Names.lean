import Fodder.Proofs.Herd.Sound

/-!
# The herd by name

A sound table is a map from names to cows, in an order. An upsert binds one name in it and a removal
unbinds one; every other name leads to the cow that it led to before, wherever that cow stands now.
-/
namespace Fodder.Herd

/-- What is stored for a cow: one without feeds keeps those that are known under its name. -/
def keeping (herd : Herd) (cow : Cow) : Cow :=
  if cow.feeds.isEmpty then
    { cow with feeds := ((herd.get? cow.name).map Cow.feeds).getD [] }
  else cow

/-- A table is another one with a cow bound to its name. A new name comes last. -/
structure Binds (before : Herd) (cow : Cow) (after : Herd) : Prop where
  lookup : ∀ name,
    after.get? name = if name = cow.name then some (before.keeping cow) else before.get? name
  order : after.names =
    if cow.name ∈ before.names then before.names else before.names ++ [cow.name]

/-- A table is another one without the cow of a name. The last cow stands in its place. -/
structure Unbinds (before : Herd) (name : String) (after : Herd) : Prop where
  bound : name ∈ before.names
  lookup : ∀ other, after.get? other = if other = name then none else before.get? other
  order : ∃ front last index, before.cows = front ++ [last] ∧
    before.names[index]? = some name ∧ after.cows = front.set index last

variable {herd : Herd} {name : String} {index : Nat} {cow old : Cow}

/-! ## Looking up -/

theorem get?_eq_some (h : herd.get? name = some cow) : cow ∈ herd.cows ∧ cow.name = name :=
  ⟨List.mem_of_find?_eq_some h, by simpa using List.find?_some h⟩

theorem Sound.get?_eq_some_iff (h : herd.Sound) :
    herd.get? name = some cow ↔ cow ∈ herd.cows ∧ cow.name = name := by
  constructor
  · exact get?_eq_some
  · rintro ⟨hcow, rfl⟩
    cases hfound : herd.get? cow.name with
    | none => exact absurd (List.mem_map_of_mem hcow) (get?_eq_none_iff.1 hfound)
    | some found =>
      obtain ⟨hmem, hname⟩ := get?_eq_some hfound
      obtain ⟨i, hi⟩ := List.mem_iff_getElem?.1 hmem
      obtain ⟨j, hj⟩ := List.mem_iff_getElem?.1 hcow
      obtain rfl := h.name_inj hi hj hname
      exact hi.symm.trans hj

/-- The cows in other places than that of a cow are those of another name. -/
theorem Sound.exists_ne_place_iff (h : herd.Sound) (hold : herd.cows[index]? = some old) :
    (∃ i, i ≠ index ∧ herd.cows[i]? = some cow) ↔ cow ∈ herd.cows ∧ cow.name ≠ old.name := by
  constructor
  · rintro ⟨i, hne, hi⟩
    refine ⟨List.mem_of_getElem? hi, ?_⟩
    intro hname
    exact hne (h.name_inj hi hold hname)
  · rintro ⟨hcow, hne⟩
    obtain ⟨i, hi⟩ := List.mem_iff_getElem?.1 hcow
    refine ⟨i, ?_, hi⟩
    rintro rfl
    exact hne (congrArg Cow.name (Option.some.inj (hi.symm.trans hold)))

/-! ## Binding -/

theorem mem_putBack_iff (hold : herd.cows[index]? = some old) {other : Cow} :
    other ∈ (herd.putBack index cow).cows ↔
      other = cow ∨ ∃ i, i ≠ index ∧ herd.cows[i]? = some other := by
  rw [List.mem_iff_getElem?]
  constructor
  · rintro ⟨i, hi⟩
    rw [getElem?_putBack herd hold] at hi
    split_ifs at hi with heq
    · exact .inl (Option.some.inj hi).symm
    · exact .inr ⟨i, heq, hi⟩
  · rintro (rfl | ⟨i, hne, hi⟩)
    · exact ⟨index, by rw [getElem?_putBack herd hold, if_pos rfl]⟩
    · exact ⟨i, by rw [getElem?_putBack herd hold, if_neg hne, hi]⟩

theorem names_putBack (hold : herd.cows[index]? = some old) (hname : old.name = cow.name) :
    (herd.putBack index cow).names = herd.names := by
  obtain ⟨hlt, rfl⟩ := List.getElem?_eq_some_iff.1 hold
  have hlt' : index < (herd.cows.map Cow.name).length := by rwa [List.length_map]
  have hat : cow.name = (herd.cows.map Cow.name)[index] := by rw [List.getElem_map, hname]
  rw [names, names, putBack, List.map_set, hat, List.set_getElem_self]

theorem name_keeping (herd : Herd) (cow : Cow) : (herd.keeping cow).name = cow.name := by
  unfold keeping
  split_ifs <;> rfl

theorem keeping_of_get?_eq_none (h : herd.get? cow.name = none) : herd.keeping cow = cow := by
  unfold keeping
  split_ifs with hempty
  · rw [h, Option.map_none, Option.getD_none, ← List.isEmpty_iff.1 hempty]
  · rfl

theorem keeping_eq_feedsAfter (hold : herd.cows[index]? = some old)
    (hget : herd.get? cow.name = some old) :
    herd.keeping cow = { cow with feeds := herd.feedsAfter index cow } := by
  unfold keeping feedsAfter
  rw [hget, hold]
  split_ifs <;> rfl

/-- Editing a cow in its place binds its name. -/
theorem Sound.binds_putBack (h : herd.Sound) (hold : herd.cows[index]? = some old)
    (hname : old.name = cow.name) (hafter : (herd.putBack index (herd.keeping cow)).Sound) :
    herd.Binds cow (herd.putBack index (herd.keeping cow)) where
  lookup name := by
    ext found
    rw [hafter.get?_eq_some_iff, mem_putBack_iff hold, h.exists_ne_place_iff hold]
    split_ifs with heq
    · subst heq
      rw [Option.some.injEq]
      constructor
      · rintro ⟨rfl | ⟨-, hne⟩, hfound⟩
        · rfl
        · exact absurd (hfound.trans hname.symm) hne
      · rintro rfl
        exact ⟨.inl rfl, name_keeping herd cow⟩
    · rw [h.get?_eq_some_iff]
      constructor
      · rintro ⟨rfl | ⟨hmem, -⟩, hfound⟩
        · exact absurd (hfound.symm.trans (name_keeping herd cow)) heq
        · exact ⟨hmem, hfound⟩
      · rintro ⟨hmem, rfl⟩
        refine ⟨.inr ⟨hmem, ?_⟩, rfl⟩
        exact fun hsame => heq (hsame.trans hname)
  order := by
    have hmem : cow.name ∈ herd.names :=
      hname ▸ List.mem_map_of_mem (List.mem_of_getElem? hold)
    rw [if_pos hmem, names_putBack hold (hname.trans (name_keeping herd cow).symm)]

theorem get?_append (herd : Herd) (cow : Cow) (name : String) :
    (⟨herd.cows ++ [cow]⟩ : Herd).get? name =
      (herd.get? name).or (if cow.name = name then some cow else none) := by
  unfold get?
  rw [List.find?_append]
  by_cases h : cow.name = name <;> simp [h]

/-- A new cow behind all others binds its name. -/
theorem binds_append (hget : herd.get? cow.name = none) :
    herd.Binds cow ⟨herd.cows ++ [cow]⟩ where
  lookup name := by
    rw [get?_append, keeping_of_get?_eq_none hget]
    by_cases heq : name = cow.name
    · rw [if_pos heq, if_pos heq.symm, heq, hget, Option.none_or]
    · rw [if_neg heq, if_neg (Ne.symm heq), Option.or_none]
  order := by
    rw [if_neg (get?_eq_none_iff.1 hget), names, List.map_append]
    rfl

theorem Sound.binds_upsert (h : herd.Sound) {placed : Placed} (hok : herd.upsert cow = .ok placed) :
    herd.Binds cow placed.herd := by
  have hafter := h.upsert hok
  obtain ⟨-, ⟨index, old, hget, hold, hname, -, rfl⟩ | ⟨hget, -, -, rfl⟩⟩ := upsert_eq_ok hok
  · rw [← keeping_eq_feedsAfter hold hget] at hafter ⊢
    exact h.binds_putBack hold hname hafter
  · exact binds_append hget

/-! ## Unbinding -/

theorem mem_fillFromEnd_iff (hold : herd.cows[index]? = some old) :
    cow ∈ (herd.fillFromEnd index).cows ↔ ∃ i, i ≠ index ∧ herd.cows[i]? = some cow := by
  obtain ⟨hlt, -⟩ := List.getElem?_eq_some_iff.1 hold
  have hlt : index < herd.size := hlt
  rw [List.mem_iff_getElem?]
  constructor
  · rintro ⟨i, hi⟩
    rw [getElem?_fillFromEnd] at hi
    split_ifs at hi with hfront heq
    · exact ⟨_, by omega, hi⟩
    · exact ⟨i, heq, hi⟩
  · rintro ⟨i, hne, hi⟩
    obtain ⟨hsize, -⟩ := List.getElem?_eq_some_iff.1 hi
    have hsize : i < herd.size := hsize
    by_cases hlast : i = herd.size - 1
    · subst hlast
      refine ⟨index, ?_⟩
      rw [getElem?_fillFromEnd, if_pos (by omega), if_pos rfl, hi]
    · refine ⟨i, ?_⟩
      rw [getElem?_fillFromEnd, if_pos (by omega), if_neg hne, hi]

theorem Sound.unbinds_remove (h : herd.Sound) {rest : Herd} {vacated : Vacated}
    (hok : herd.remove name = .ok (rest, vacated)) : herd.Unbinds name rest := by
  obtain ⟨index, cow, -, hcow, rfl, rfl, -⟩ := remove_eq_ok hok
  constructor
  · exact List.mem_map_of_mem (List.mem_of_getElem? hcow)
  · intro other
    ext found
    rw [(h.fillFromEnd index).get?_eq_some_iff, mem_fillFromEnd_iff hcow,
      h.exists_ne_place_iff hcow]
    split_ifs with heq
    · simp only [iff_false]
      rintro ⟨⟨-, hne⟩, hfound⟩
      exact hne (hfound.trans heq)
    · rw [h.get?_eq_some_iff]
      constructor
      · rintro ⟨⟨hmem, -⟩, hfound⟩
        exact ⟨hmem, hfound⟩
      · rintro ⟨hmem, rfl⟩
        exact ⟨⟨hmem, heq⟩, rfl⟩
  · obtain ⟨front, last, rfl, -⟩ := exists_concat hcow
    refine ⟨front, last, index, rfl, ?_, ?_⟩
    · rw [Herd.names, List.getElem?_map, hcow, Option.map_some]
    · rw [fillFromEnd_concat]

end Fodder.Herd
