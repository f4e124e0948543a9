import Fodder.Herd.Basic
import Mathlib.Tactic

/-!
# Sound herds

The invariant of the table, and how its operations keep it. Names and collars are distinct when no
two places share one, so each operation is described by what it puts at each place.
-/
namespace Fodder.Herd

/-- What the table never gives up, whatever is stored and whatever fails. -/
structure Sound (herd : Herd) : Prop where
  size : herd.size ≤ capacity
  valid : ∀ cow ∈ herd.cows, cow.Valid
  names : herd.names.Nodup
  collars : (herd.cows.map Cow.collar).Nodup

theorem sound_empty : ({} : Herd).Sound := by
  constructor <;> simp [size, names, capacity]

section Keys

variable {α : Type} {f : Cow → α} {cows others : List Cow} {cow : Cow}

theorem nodup_map_iff_getElem? : (cows.map f).Nodup ↔
    ∀ (i j : Nat) (a b : Cow), cows[i]? = some a → cows[j]? = some b → f a = f b → i = j := by
  constructor
  · intro h i j a b hi hj hab
    obtain ⟨hi, rfl⟩ := List.getElem?_eq_some_iff.1 hi
    obtain ⟨hj, rfl⟩ := List.getElem?_eq_some_iff.1 hj
    have hi' : i < (cows.map f).length := by rwa [List.length_map]
    have hj' : j < (cows.map f).length := by rwa [List.length_map]
    have hab' : (cows.map f)[i] = (cows.map f)[j] := by rwa [List.getElem_map, List.getElem_map]
    exact h.getElem_inj_iff.1 hab'
  · intro h
    rw [List.nodup_iff_getElem?_ne_getElem?]
    intro i j hij hj heq
    have hj : j < cows.length := by simpa using hj
    have hab : f cows[i] = f cows[j] := by
      simpa [List.getElem?_map, List.getElem?_eq_getElem hj,
        List.getElem?_eq_getElem (hij.trans hj)] using heq
    exact hij.ne (h i j _ _ (List.getElem?_eq_getElem _) (List.getElem?_eq_getElem _) hab)

/-- Keys stay distinct in a table whose cows all come from different places. -/
theorem nodup_map_of_places (h : (cows.map f).Nodup) (place : Nat → Nat)
    (hat : ∀ i cow, others[i]? = some cow → cows[place i]? = some cow)
    (hinj : ∀ i j, i < others.length → j < others.length → place i = place j → i = j) :
    (others.map f).Nodup := by
  rw [nodup_map_iff_getElem?] at h ⊢
  intro i j a b hi hj hab
  obtain ⟨hi', -⟩ := List.getElem?_eq_some_iff.1 hi
  obtain ⟨hj', -⟩ := List.getElem?_eq_some_iff.1 hj
  exact hinj i j hi' hj' (h _ _ a b (hat i a hi) (hat j b hj) hab)

theorem nodup_map_concat (h : (cows.map f).Nodup) (hnew : ∀ other ∈ cows, f other ≠ f cow) :
    ((cows ++ [cow]).map f).Nodup := by
  rw [List.map_append, List.map_singleton, List.nodup_append]
  refine ⟨h, List.nodup_singleton _, ?_⟩
  intro a ha b hb
  obtain ⟨other, hother, rfl⟩ := List.mem_map.1 ha
  obtain rfl := List.mem_singleton.1 hb
  exact hnew other hother

theorem nodup_map_set (h : (cows.map f).Nodup) {index : Nat}
    (hnew : ∀ i other, cows[i]? = some other → f other = f cow → i = index) :
    ((cows.set index cow).map f).Nodup := by
  rw [nodup_map_iff_getElem?] at h ⊢
  intro i j a b hi hj hab
  rw [List.getElem?_set] at hi hj
  by_cases hi' : index = i
  · by_cases hj' : index = j
    · omega
    · rw [if_pos hi'] at hi
      rw [if_neg hj'] at hj
      split_ifs at hi
      obtain rfl := Option.some.inj hi
      exact hi' ▸ (hnew j b hj hab.symm).symm
  · rw [if_neg hi'] at hi
    by_cases hj' : index = j
    · rw [if_pos hj'] at hj
      split_ifs at hj
      obtain rfl := Option.some.inj hj
      exact hj' ▸ hnew i a hi hab
    · rw [if_neg hj'] at hj
      exact h i j a b hi hj hab

end Keys

variable {herd : Herd} {name : String} {index : Nat} {cow old last : Cow}

theorem Sound.name_inj (h : herd.Sound) {i j : Nat} {a b : Cow} (hi : herd.cows[i]? = some a)
    (hj : herd.cows[j]? = some b) (hab : a.name = b.name) : i = j :=
  nodup_map_iff_getElem?.1 h.names i j a b hi hj hab

theorem Sound.collar_inj (h : herd.Sound) {i j : Nat} {a b : Cow} (hi : herd.cows[i]? = some a)
    (hj : herd.cows[j]? = some b) (hab : a.collar = b.collar) : i = j :=
  nodup_map_iff_getElem?.1 h.collars i j a b hi hj hab

/-- A table whose cows all come from different places of a sound table is sound. -/
theorem Sound.of_places {other : Herd} (h : herd.Sound) (place : Nat → Nat)
    (hsize : other.size ≤ herd.size)
    (hat : ∀ i cow, other.cows[i]? = some cow → herd.cows[place i]? = some cow)
    (hinj : ∀ i j, i < other.size → j < other.size → place i = place j → i = j) : other.Sound where
  size := hsize.trans h.size
  valid cow hcow := by
    obtain ⟨i, hi⟩ := List.mem_iff_getElem?.1 hcow
    exact h.valid cow (List.mem_of_getElem? (hat i cow hi))
  names := nodup_map_of_places h.names place hat hinj
  collars := nodup_map_of_places h.collars place hat hinj

theorem Sound.take (h : herd.Sound) (size : Nat) : (⟨herd.cows.take size⟩ : Herd).Sound := by
  refine h.of_places id (List.length_take_le' _ _) ?_ fun i j _ _ hij => hij
  intro i cow hcow
  rw [List.getElem?_take] at hcow
  split_ifs at hcow
  exact hcow

/-! ## Looking cows up -/

theorem getElem?_of_position? (h : herd.position? name = some index) :
    ∃ cow, herd.cows[index]? = some cow ∧ cow.name = name := by
  obtain ⟨hlt, hname, -⟩ := List.findIdx?_eq_some_iff_getElem.1 h
  exact ⟨_, List.getElem?_eq_getElem hlt, by simpa using hname⟩

theorem get?_eq (herd : Herd) (name : String) :
    herd.get? name = (herd.position? name).bind (herd.cows[·]?) :=
  List.find?_eq_bind_findIdx?_getElem?

theorem position?_eq_none_iff : herd.position? name = none ↔ name ∉ herd.names := by
  simp only [position?, List.findIdx?_eq_none_iff, names, List.mem_map, decide_eq_false_iff_not]
  constructor
  · rintro h ⟨cow, hcow, rfl⟩
    exact h cow hcow rfl
  · intro h cow hcow hname
    exact h ⟨cow, hcow, hname⟩

theorem get?_eq_none_iff : herd.get? name = none ↔ name ∉ herd.names := by
  rw [← position?_eq_none_iff, get?_eq]
  cases h : herd.position? name with
  | none => simp
  | some index =>
    obtain ⟨cow, hcow, -⟩ := getElem?_of_position? h
    simp [hcow]

theorem wornElsewhere_eq_false {tag : UInt16} {place : Option Nat}
    (h : herd.wornElsewhere tag place = false) {i : Nat} (hi : herd.cows[i]? = some cow)
    (hcollar : cow.collar = tag) : place = some i := by
  rw [wornElsewhere, List.any_eq_false] at h
  have := h (cow, i) (List.mem_zipIdx_iff_getElem?.2 (by simpa using hi))
  simp only [hcollar, true_and, decide_eq_true_eq, Decidable.not_not] at this
  exact this.symm

/-! ## Filling a place from the end -/

theorem getElem?_fillFromEnd (herd : Herd) (index i : Nat) :
    (herd.fillFromEnd index).cows[i]? =
      if i < herd.size - 1 then herd.cows[if i = index then herd.size - 1 else i]? else none := by
  rw [fillFromEnd, size]
  cases hlast : herd.cows.getLast? with
  | none => simp [List.getLast?_eq_none_iff.1 hlast]
  | some last =>
    rw [List.getLast?_eq_getElem?] at hlast
    simp only [List.getElem?_set, List.length_dropLast, List.getElem?_dropLast]
    by_cases hi : i < herd.cows.length - 1
    · by_cases heq : index = i
      · subst heq
        simp [hi, hlast]
      · simp [hi, heq, Ne.symm heq]
    · by_cases heq : index = i
      · subst heq
        simp [hi]
      · simp [hi, heq]

theorem size_fillFromEnd (herd : Herd) (index : Nat) :
    (herd.fillFromEnd index).size = herd.size - 1 := by
  rw [fillFromEnd, size, size]
  cases hlast : herd.cows.getLast? with
  | none => simp [List.getLast?_eq_none_iff.1 hlast]
  | some last => simp

theorem cows_fillFromEnd (hlast : herd.cows[herd.size - 1]? = some last) (index : Nat) :
    (herd.fillFromEnd index).cows = (herd.cows.set index last).take (herd.size - 1) := by
  apply List.ext_getElem?
  intro i
  rw [getElem?_fillFromEnd, List.getElem?_take, List.getElem?_set]
  by_cases hi : i < herd.size - 1
  · have hlength : i < herd.cows.length := hi.trans_le (Nat.sub_le _ _)
    by_cases heq : i = index
    · simp [heq, hlast, heq ▸ hlength]
    · simp [hi, heq, Ne.symm heq]
  · simp [hi]

theorem mem_of_mem_fillFromEnd (h : cow ∈ (herd.fillFromEnd index).cows) : cow ∈ herd.cows := by
  obtain ⟨i, hi⟩ := List.mem_iff_getElem?.1 h
  rw [getElem?_fillFromEnd] at hi
  split at hi
  · exact List.mem_of_getElem? hi
  · cases hi

theorem Sound.fillFromEnd (h : herd.Sound) (index : Nat) : (herd.fillFromEnd index).Sound := by
  refine h.of_places (fun i => if i = index then herd.size - 1 else i) ?_ ?_ ?_
  · rw [size_fillFromEnd]
    exact Nat.sub_le _ _
  · intro i cow hi
    rw [getElem?_fillFromEnd] at hi
    split at hi
    · exact hi
    · cases hi
  · intro i j hi hj hij
    rw [size_fillFromEnd] at hi hj
    split_ifs at hij <;> omega

/-! ## Creating and editing -/

/-- How a sound table takes a cow in: in the place of the one of its name, or behind all others. -/
theorem upsert_eq_ok {placed : Placed} (h : herd.upsert cow = .ok placed) :
    cow.Valid ∧
      ((∃ index old, herd.get? cow.name = some old ∧ herd.cows[index]? = some old ∧
          old.name = cow.name ∧
          (∀ i other, herd.cows[i]? = some other → other.collar = cow.collar → i = index) ∧
          placed = ⟨herd.putBack index { cow with feeds := herd.feedsAfter index cow }, index, false⟩) ∨
        (herd.get? cow.name = none ∧ herd.size < capacity ∧
          (∀ other ∈ herd.cows, other.collar ≠ cow.collar) ∧
          placed = ⟨⟨herd.cows ++ [cow]⟩, herd.size, true⟩)) := by
  rw [upsert] at h
  split at h
  · cases h
  · rename_i hflaw
    refine ⟨(Cow.flaw?_eq_none_iff cow).1 hflaw, ?_⟩
    dsimp only at h
    split at h
    · cases h
    · rename_i hworn
      have hworn : herd.wornElsewhere cow.collar (herd.position? cow.name) = false := by
        simpa using hworn
      split at h
      · rename_i index hposition
        obtain ⟨old, hold, hname⟩ := getElem?_of_position? hposition
        left
        refine ⟨index, old, ?_, hold, hname, ?_, (Except.ok.inj h).symm⟩
        · rw [get?_eq, hposition]
          exact hold
        · intro i other hi hcollar
          have := wornElsewhere_eq_false hworn hi hcollar
          rw [hposition] at this
          exact (Option.some.inj this).symm
      · rename_i hposition
        split at h
        · cases h
        · rename_i hroom
          right
          refine ⟨get?_eq_none_iff.2 (position?_eq_none_iff.1 hposition), by omega, ?_,
            (Except.ok.inj h).symm⟩
          intro other hother hcollar
          obtain ⟨i, hi⟩ := List.mem_iff_getElem?.1 hother
          have := wornElsewhere_eq_false hworn hi hcollar
          simp [hposition] at this

theorem Sound.append (h : herd.Sound) (hsize : herd.size < capacity) (hvalid : cow.Valid)
    (hname : cow.name ∉ herd.names) (hcollar : ∀ other ∈ herd.cows, other.collar ≠ cow.collar) :
    (⟨herd.cows ++ [cow]⟩ : Herd).Sound where
  size := by
    simp only [Herd.size, List.length_append, List.length_singleton] at hsize ⊢
    omega
  valid other hother := by
    rcases List.mem_append.1 hother with hother | hother
    · exact h.valid other hother
    · exact List.mem_singleton.1 hother ▸ hvalid
  names := by
    apply nodup_map_concat h.names
    intro other hother heq
    exact hname (heq ▸ List.mem_map_of_mem hother)
  collars := nodup_map_concat h.collars hcollar

theorem getElem?_putBack (herd : Herd) (hold : herd.cows[index]? = some old) (cow : Cow) (i : Nat) :
    (herd.putBack index cow).cows[i]? = if i = index then some cow else herd.cows[i]? := by
  obtain ⟨hlt, -⟩ := List.getElem?_eq_some_iff.1 hold
  rw [putBack, List.getElem?_set]
  by_cases h : index = i
  · rw [if_pos h, if_pos hlt, if_pos h.symm]
  · rw [if_neg h, if_neg (Ne.symm h)]

theorem Sound.putBack (h : herd.Sound) (hold : herd.cows[index]? = some old) (hvalid : cow.Valid)
    (hname : cow.name = old.name)
    (hcollar : ∀ i other, herd.cows[i]? = some other → other.collar = cow.collar → i = index) :
    (herd.putBack index cow).Sound where
  size := by
    simp only [Herd.size, Herd.putBack, List.length_set]
    exact h.size
  valid other hother := by
    rcases List.mem_or_eq_of_mem_set hother with hother | rfl
    · exact h.valid other hother
    · exact hvalid
  names := by
    apply nodup_map_set h.names
    intro i other hother heq
    exact h.name_inj hother hold (heq.trans hname)
  collars := nodup_map_set h.collars hcollar

theorem Sound.upsert {placed : Placed} (h : herd.Sound) (hok : herd.upsert cow = .ok placed) :
    placed.herd.Sound := by
  obtain ⟨hvalid, ⟨index, old, -, hold, hname, hcollar, rfl⟩ | ⟨hget, hsize, hcollar, rfl⟩⟩ :=
    upsert_eq_ok hok
  · refine h.putBack hold ?_ hname.symm hcollar
    exact { hvalid with }
  · exact h.append hsize hvalid (get?_eq_none_iff.1 hget) hcollar

/-! ## Removing and taking back -/

theorem fillFromEnd_concat (front : List Cow) (last : Cow) (index : Nat) :
    (⟨front ++ [last]⟩ : Herd).fillFromEnd index = ⟨front.set index last⟩ := by
  simp [fillFromEnd]

/-- A table with a cow at a place has a last cow. -/
theorem exists_concat (h : herd.cows[index]? = some cow) :
    ∃ front last, herd = ⟨front ++ [last]⟩ ∧ index ≤ front.length := by
  obtain ⟨hlt, -⟩ := List.getElem?_eq_some_iff.1 h
  have hne : herd.cows ≠ [] := List.ne_nil_of_length_pos (by omega)
  refine ⟨herd.cows.dropLast, herd.cows.getLast hne, ?_, ?_⟩
  · rw [List.dropLast_append_getLast hne]
  · rw [List.length_dropLast]
    omega

theorem remove_eq_ok {rest : Herd} {vacated : Vacated} (h : herd.remove name = .ok (rest, vacated)) :
    ∃ index cow, herd.get? name = some cow ∧ herd.cows[index]? = some cow ∧ cow.name = name ∧
      rest = herd.fillFromEnd index ∧ vacated = ⟨index, index ≠ herd.size - 1⟩ := by
  rw [remove] at h
  split at h
  · cases h
  · rename_i index hposition
    obtain ⟨cow, hcow, hname⟩ := getElem?_of_position? hposition
    obtain ⟨rfl, rfl⟩ := Prod.mk.inj (Except.ok.inj h)
    refine ⟨index, cow, ?_, hcow, hname, rfl, rfl⟩
    rw [get?_eq, hposition]
    exact hcow

theorem not_mem_names_of_remove {error : HerdError} (h : herd.remove name = .error error) :
    name ∉ herd.names := by
  rw [remove] at h
  split at h
  · rename_i hposition
    exact position?_eq_none_iff.1 hposition
  · cases h

/-- Restoring a removed cow gives back the table as it was, places included. -/
theorem restore_fillFromEnd (h : herd.cows[index]? = some cow) :
    (herd.fillFromEnd index).restore ⟨index, index ≠ herd.size - 1⟩ cow = herd := by
  obtain ⟨front, last, rfl, hle⟩ := exists_concat h
  rw [fillFromEnd_concat, restore, at?]
  rcases hle.lt_or_eq with hlt | rfl
  · rw [List.getElem?_append_left hlt] at h
    obtain ⟨-, rfl⟩ := List.getElem?_eq_some_iff.1 h
    have moved : index ≠ front.length := hlt.ne
    simp [size, hlt, moved]
  · obtain rfl : last = cow := by simpa using h
    simp [List.set_eq_of_length_le]

theorem putBack_putBack (hold : herd.cows[index]? = some old) (cow : Cow) :
    (herd.putBack index cow).putBack index old = herd := by
  obtain ⟨hlt, rfl⟩ := List.getElem?_eq_some_iff.1 hold
  simp [putBack]

/-- A cow that was just created is the last one, so removing it moves no other. -/
theorem remove_append (h : cow.name ∉ herd.names) :
    (⟨herd.cows ++ [cow]⟩ : Herd).remove cow.name = .ok (herd, ⟨herd.size, false⟩) := by
  have absent : herd.cows.findIdx? (fun other => decide (other.name = cow.name)) = none :=
    position?_eq_none_iff.2 h
  have hposition : (⟨herd.cows ++ [cow]⟩ : Herd).position? cow.name = some herd.size := by
    rw [position?, List.findIdx?_append, absent]
    simp [List.findIdx?_cons, size]
  rw [remove, hposition]
  simp [fillFromEnd_concat, List.set_eq_of_length_le, size]

end Fodder.Herd
