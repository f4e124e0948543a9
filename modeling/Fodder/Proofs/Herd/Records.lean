import Fodder.Proofs.Herd.Sound

/-!
# Herds from stored records

Taking records over one by one gives a sound herd whose cows are some of the records, in their
order. A sound table read back gives itself, also when one of its cows follows once more; what is
taken over from the front of a list is the front of what is taken over from all of it. Whether a
record is taken over is decided where it first occurs: copies behind it change nothing. In the end
the places of the records that are kept say it all: any other record has a flaw, clashes with one kept
before it, or found the table full.
-/
namespace Fodder.Herd

variable {herd : Herd} {cow : Cow} {records more : List Cow}

theorem accepts_iff : herd.accepts cow = true ↔ herd.size < capacity ∧ cow.Valid ∧
    cow.name ∉ herd.names ∧ ∀ other ∈ herd.cows, other.collar ≠ cow.collar := by
  simp only [accepts, Bool.and_eq_true, decide_eq_true_eq, Option.isNone_iff_eq_none,
    Cow.flaw?_eq_none_iff, position?_eq_none_iff, Bool.not_eq_true', List.any_eq_false, ne_eq]
  tauto

theorem Sound.enrol (h : herd.Sound) (cow : Cow) : (herd.enrol cow).Sound := by
  rw [Herd.enrol]
  split
  · rename_i haccepts
    obtain ⟨hsize, hvalid, hname, hcollar⟩ := accepts_iff.1 haccepts
    exact h.append hsize hvalid hname hcollar
  · exact h

theorem Sound.foldl_enrol (h : herd.Sound) (records : List Cow) :
    (records.foldl Herd.enrol herd).Sound := by
  induction records generalizing herd with
  | nil => exact h
  | cons cow records ih => exact ih (h.enrol cow)

theorem sound_ofRecords (records : List Cow) : (ofRecords records).Sound :=
  sound_empty.foldl_enrol records

theorem ofRecords_append (records more : List Cow) :
    ofRecords (records ++ more) = more.foldl Herd.enrol (ofRecords records) :=
  List.foldl_append

/-- Later records only add to what earlier ones gave. -/
theorem foldl_enrol_eq (herd : Herd) (records : List Cow) :
    ∃ kept : List Cow, kept.Sublist records ∧
      (records.foldl Herd.enrol herd).cows = herd.cows ++ kept := by
  induction records generalizing herd with
  | nil => exact ⟨[], List.Sublist.refl _, (List.append_nil _).symm⟩
  | cons cow records ih =>
    obtain ⟨kept, hkept, hcows⟩ := ih (herd.enrol cow)
    by_cases haccepts : herd.accepts cow = true
    · refine ⟨cow :: kept, hkept.cons_cons cow, ?_⟩
      rw [List.foldl_cons, hcows, enrol, if_pos haccepts, List.append_assoc]
      rfl
    · refine ⟨kept, hkept.cons cow, ?_⟩
      rw [List.foldl_cons, hcows, enrol, if_neg haccepts]

theorem cows_ofRecords_sublist (records : List Cow) : (ofRecords records).cows.Sublist records := by
  obtain ⟨kept, hkept, hcows⟩ := foldl_enrol_eq {} records
  rw [ofRecords, hcows]
  exact hkept

/-- What a longer table accepts, its front accepts. -/
theorem accepts_of_longer {longer : Herd} (hfront : herd.cows <+: longer.cows)
    (h : longer.accepts cow = true) : herd.accepts cow = true := by
  obtain ⟨hsize, hvalid, hname, hcollar⟩ := accepts_iff.1 h
  refine accepts_iff.2 ⟨?_, hvalid, ?_, fun other hother => hcollar other (hfront.subset hother)⟩
  · exact hfront.length_le.trans_lt hsize
  · exact fun hmem => hname ((hfront.map Cow.name).subset hmem)

/-- A record that was considered is in the table or was turned down, so it is not accepted again. -/
theorem not_accepts_of_mem (hcow : cow ∈ records) : ¬(ofRecords records).accepts cow = true := by
  intro haccepts
  obtain ⟨front, rest, rfl⟩ := List.append_of_mem hcow
  obtain ⟨kept, -, hcows⟩ := foldl_enrol_eq ((ofRecords front).enrol cow) rest
  have hlater :
      (ofRecords (front ++ cow :: rest)).cows = ((ofRecords front).enrol cow).cows ++ kept := by
    rw [ofRecords_append, List.foldl_cons, hcows]
  by_cases htaken : (ofRecords front).accepts cow = true
  · rw [enrol, if_pos htaken] at hlater
    have hmem : cow ∈ (ofRecords (front ++ cow :: rest)).cows := by simp [hlater]
    exact (accepts_iff.1 haccepts).2.2.1 (List.mem_map_of_mem hmem)
  · rw [enrol, if_neg htaken] at hlater
    exact htaken (accepts_of_longer (hlater ▸ List.prefix_append _ _) haccepts)

/-- Records that were all considered before change nothing. -/
theorem ofRecords_append_of_subset (h : more ⊆ records) :
    ofRecords (records ++ more) = ofRecords records := by
  rw [ofRecords_append]
  induction more with
  | nil => rfl
  | cons cow more ih =>
    obtain ⟨hcow, hmore⟩ := List.cons_subset.1 h
    rw [List.foldl_cons, enrol, if_neg (not_accepts_of_mem hcow)]
    exact ih hmore

/-- Where a list is gone back in, the records that come twice are taken over once. -/
theorem ofRecords_take_append_drop (records : List Cow) {back upto : Nat} (h : back ≤ upto) :
    ofRecords (records.take upto ++ records.drop back) = ofRecords records := by
  have hdrop : records.drop back = (records.take upto).drop back ++ records.drop upto := by
    have hsplit := List.take_append_drop (upto - back) (records.drop back)
    rw [List.drop_drop, Nat.add_sub_cancel' h] at hsplit
    rw [List.drop_take, hsplit]
  rw [hdrop, ← List.append_assoc, ofRecords_append, ofRecords_append_of_subset (List.drop_subset _ _),
    ← ofRecords_append, List.take_append_drop]

theorem leftOut_eq_zero_iff : leftOut records = 0 ↔ (ofRecords records).cows = records := by
  have hsub := cows_ofRecords_sublist records
  constructor
  · intro h
    apply hsub.eq_of_length_le
    rw [leftOut, size] at h
    omega
  · intro h
    rw [leftOut, size, h, Nat.sub_self]

/-- A sound table is taken over as it is. -/
theorem ofRecords_of_sound (h : herd.Sound) : ofRecords herd.cows = herd := by
  suffices ∀ records, (⟨records⟩ : Herd).Sound → ofRecords records = ⟨records⟩ from this _ h
  intro records
  induction records using List.reverseRecOn with
  | nil => exact fun _ => rfl
  | append_singleton front last ih =>
    intro h
    have hsize := h.size
    have hnames := h.names
    have hcollars := h.collars
    simp only [size, names, List.length_append, List.length_singleton, List.map_append,
      List.map_singleton] at hsize hnames hcollars
    have hfront : (⟨front⟩ : Herd).Sound :=
      ⟨(Nat.le_succ _).trans hsize, fun cow hcow => h.valid cow (List.mem_append_left _ hcow),
        (List.nodup_append.1 hnames).1, (List.nodup_append.1 hcollars).1⟩
    rw [ofRecords_append, ih hfront, List.foldl_cons, List.foldl_nil, enrol, if_pos]
    refine accepts_iff.2 ⟨hsize, h.valid last (by simp), ?_, ?_⟩
    · intro hmem
      exact (List.nodup_append.1 hnames).2.2 _ hmem _ (List.mem_singleton_self _) rfl
    · intro other hother hcollar
      exact (List.nodup_append.1 hcollars).2.2 _ (List.mem_map_of_mem hother) _
        (List.mem_singleton_self _) hcollar

/-- The name of a record without flaws is in the table, as its own or as that of a record before it,
if those before it leave room and wear its collar under its name only. -/
theorem mem_names_ofRecords {front rest : List Cow} (hroom : front.length < capacity)
    (hvalid : cow.Valid) (hcollars : ∀ other ∈ front, other.Valid → other.collar = cow.collar →
      other.name = cow.name) :
    cow.name ∈ (ofRecords (front ++ cow :: rest)).names := by
  have hsub := cows_ofRecords_sublist front
  have hsound := sound_ofRecords front
  obtain ⟨kept, -, hcows⟩ := foldl_enrol_eq ((ofRecords front).enrol cow) rest
  suffices hname : cow.name ∈ ((ofRecords front).enrol cow).names by
    rw [names, ofRecords_append, List.foldl_cons, hcows, List.map_append]
    exact List.mem_append_left _ hname
  by_cases haccepts : (ofRecords front).accepts cow = true
  · simp [enrol, haccepts, names]
  · rw [enrol, if_neg haccepts]
    by_contra hnew
    refine haccepts (accepts_iff.2 ⟨hsub.length_le.trans_lt hroom, hvalid, hnew, ?_⟩)
    intro other hother hcollar
    have hname := hcollars other (hsub.subset hother) (hsound.valid other hother) hcollar
    exact hnew (hname ▸ List.mem_map_of_mem hother)

/-- A record whose name is taken changes nothing. -/
theorem ofRecords_append_of_mem_names (h : herd.Sound) (hname : cow.name ∈ herd.names) :
    ofRecords (herd.cows ++ [cow]) = herd := by
  rw [ofRecords_append, ofRecords_of_sound h, List.foldl_cons, List.foldl_nil, enrol, if_neg]
  exact fun haccepts => (accepts_iff.1 haccepts).2.2.1 hname

/-- The last cow found also in an earlier place is moved there, and the cow of that place is gone. -/
theorem ofRecords_set_last (h : herd.Sound) {index : Nat} {last : Cow}
    (hlast : herd.cows[herd.size - 1]? = some last) (hindex : index < herd.size - 1) :
    ofRecords (herd.cows.set index last) = herd.fillFromEnd index := by
  have hsound := h.fillFromEnd index
  obtain ⟨front, cow, rfl, -⟩ := exists_concat hlast
  simp only [size, List.length_append, List.length_singleton, Nat.add_sub_cancel] at hindex hlast
  obtain rfl : cow = last := by simpa using hlast
  rw [fillFromEnd_concat] at hsound ⊢
  rw [List.set_append_left _ _ hindex]
  apply ofRecords_append_of_mem_names hsound
  exact List.mem_map_of_mem (List.mem_set hindex cow)

/-- The first records, as many as are kept, give the whole herd only if they are the kept ones. -/
theorem ofRecords_take_size_iff (records : List Cow) :
    ofRecords (records.take (ofRecords records).size) = ofRecords records ↔
      (ofRecords records).cows <+: records := by
  constructor
  · intro h
    have hsub := cows_ofRecords_sublist (records.take (ofRecords records).size)
    rw [h] at hsub
    have heq := hsub.eq_of_length_le (List.length_take_le _ _)
    rw [heq]
    exact List.take_prefix _ _
  · intro h
    rw [size, ← List.prefix_iff_eq_take.1 h]
    exact ofRecords_of_sound (sound_ofRecords records)

/-! ## Which records are kept -/

/-- Why the record at a place is left out, if those at the places `kept` are not. -/
inductive LeftOut (records : List Cow) (kept : List Nat) (place : Nat) (cow : Cow) : Prop
  | flawed (flaw : ¬cow.Valid)
  /-- A record kept before it has its name or its collar. -/
  | clashing {earlier : Nat} {other : Cow} (kept : earlier ∈ kept) (before : earlier < place)
      (found : records[earlier]? = some other)
      (shared : other.name = cow.name ∨ other.collar = cow.collar)
  /-- The table was full when its turn came. -/
  | late (full : (kept.filter (· < place)).length = capacity)

/-- How a herd is chosen from stored records, by the places of those that are kept. -/
structure Keeps (records : List Cow) (kept : List Nat) (herd : Herd) : Prop where
  /-- The places ascend, so the records keep their order. -/
  places : kept.Sublist (List.range records.length)
  cows : herd.cows = kept.filterMap (records[·]?)
  sound : herd.Sound
  leftOut : ∀ (place : Nat) (cow : Cow), records[place]? = some cow → place ∉ kept →
    LeftOut records kept place cow

section Keeps

variable {kept later : List Nat} {last : Cow} {place : Nat}

/-- What comes later is no reason to leave a record out, and takes no reason away. -/
theorem LeftOut.append (h : LeftOut records kept place cow) (hkept : ∀ i ∈ kept, i < records.length)
    (hlater : ∀ i ∈ later, place ≤ i) (more : List Cow) :
    LeftOut (records ++ more) (kept ++ later) place cow := by
  cases h with
  | flawed flaw => exact .flawed flaw
  | clashing earlier before found shared =>
    refine .clashing (List.mem_append_left later earlier) before ?_ shared
    rw [List.getElem?_append_left (hkept _ earlier)]
    exact found
  | late full =>
    have hnone : later.filter (· < place) = [] := by simpa using hlater
    exact .late (by rw [List.filter_append, hnone, List.append_nil, full])

theorem Keeps.lt (h : Keeps records kept herd) : ∀ i ∈ kept, i < records.length :=
  fun _ hi => List.mem_range.1 (h.places.subset hi)

theorem Keeps.filterMap_append (h : Keeps records kept herd) (more : List Cow) :
    kept.filterMap ((records ++ more)[·]?) = herd.cows := by
  rw [h.cows]
  exact List.filterMap_congr fun i hi => List.getElem?_append_left (h.lt i hi)

theorem Keeps.length (h : Keeps records kept herd) : kept.length = herd.size := by
  have hsome : ∀ i ∈ kept, (records[i]?).isSome = true := by simpa using h.lt
  rw [size, h.cows, List.length_filterMap_eq_countP, List.countP_eq_length.2 hsome]

theorem Keeps.places_append (h : Keeps records kept herd) (last : Cow) :
    kept.Sublist (List.range (records ++ [last]).length) := by
  rw [List.length_append, List.length_singleton, List.range_succ]
  exact h.places.trans (List.sublist_append_left _ _)

/-- A record at a place of the longer list that is not the last was left out before. -/
theorem Keeps.leftOut_append (h : Keeps records kept herd)
    (hcow : (records ++ [last])[place]? = some cow)
    (hlast : place ≠ records.length) (hnot : place ∉ kept) (hlater : ∀ i ∈ later, records.length ≤ i) :
    LeftOut (records ++ [last]) (kept ++ later) place cow := by
  have hlt : place < records.length := by
    have hle := (List.getElem?_eq_some_iff.1 hcow).1
    rw [List.length_append, List.length_singleton] at hle
    omega
  rw [List.getElem?_append_left hlt] at hcow
  exact (h.leftOut place cow hcow hnot).append h.lt (fun i hi => hlt.le.trans (hlater i hi)) [last]

/-- A record that the table accepts comes to its end. -/
theorem Keeps.concat (h : Keeps records kept herd) (haccepts : herd.accepts last = true) :
    Keeps (records ++ [last]) (kept ++ [records.length]) (herd.enrol last) where
  places := by
    rw [List.length_append, List.length_singleton, List.range_succ]
    exact h.places.append (List.Sublist.refl _)
  cows := by
    rw [enrol, if_pos haccepts, List.filterMap_append, h.filterMap_append]
    simp
  sound := h.sound.enrol last
  leftOut place cow hcow hnot := by
    obtain ⟨hnot, hlast⟩ : place ∉ kept ∧ place ≠ records.length := by simpa using hnot
    exact h.leftOut_append hcow hlast hnot (by simp)

/-- One that it does not accept has a reason to be left out. -/
theorem Keeps.leftOut_of_refused (h : Keeps records kept herd)
    (hrefused : ¬herd.accepts last = true) :
    LeftOut (records ++ [last]) kept records.length last := by
  by_contra hnone
  have hapart : ∀ other ∈ herd.cows, ¬(other.name = last.name ∨ other.collar = last.collar) := by
    intro other hother hshared
    rw [← h.filterMap_append [last]] at hother
    obtain ⟨i, hi, hfound⟩ := List.mem_filterMap.1 hother
    exact hnone (.clashing hi (h.lt i hi) hfound hshared)
  refine hrefused (accepts_iff.2 ⟨h.sound.size.lt_of_ne ?_, ?_, ?_, ?_⟩)
  · intro hfull
    have hall : kept.filter (· < records.length) = kept := by simpa using h.lt
    exact hnone (.late (by rw [hall, h.length, hfull]))
  · by_contra hflaw
    exact hnone (.flawed hflaw)
  · intro hname
    obtain ⟨other, hother, hsame⟩ := List.mem_map.1 hname
    exact hapart other hother (.inl hsame)
  · exact fun other hother hsame => hapart other hother (.inr hsame)

theorem Keeps.skip (h : Keeps records kept herd) (hrefused : ¬herd.accepts last = true) :
    Keeps (records ++ [last]) kept (herd.enrol last) where
  places := h.places_append last
  cows := by rw [enrol, if_neg hrefused, h.filterMap_append]
  sound := h.sound.enrol last
  leftOut place cow hcow hnot := by
    by_cases hlast : place = records.length
    · subst hlast
      obtain rfl : last = cow := by simpa using hcow
      exact h.leftOut_of_refused hrefused
    · have hlater : ∀ i ∈ ([] : List Nat), records.length ≤ i := by simp
      have hleft := h.leftOut_append hcow hlast hnot hlater
      rwa [List.append_nil] at hleft

/-- Reading the records in their order keeps those that nothing speaks against. -/
theorem exists_keeps (records : List Cow) : ∃ kept, Keeps records kept (ofRecords records) := by
  induction records using List.reverseRecOn with
  | nil => exact ⟨[], List.Sublist.refl _, rfl, sound_empty, by simp⟩
  | append_singleton records last ih =>
    obtain ⟨kept, hkeeps⟩ := ih
    rw [ofRecords_append, List.foldl_cons, List.foldl_nil]
    by_cases haccepts : (ofRecords records).accepts last = true
    · exact ⟨_, hkeeps.concat haccepts⟩
    · exact ⟨_, hkeeps.skip haccepts⟩

end Keeps

/-- Taking over stored records keeps the first of those that clash, leaves out no record without a
reason, and counts those that it leaves out. Doing so again with the table changes nothing, whatever
stored records follow it. -/
theorem keeps_ofRecords (records : List Cow) :
    (∃ kept, Keeps records kept (ofRecords records) ∧
        kept.length + leftOut records = records.length) ∧
      ofRecords (ofRecords records).cows = ofRecords records ∧
      ∀ more ⊆ records, ofRecords ((ofRecords records).cows ++ more) = ofRecords records := by
  obtain ⟨kept, hkeeps⟩ := exists_keeps records
  have hsame := ofRecords_of_sound (sound_ofRecords records)
  refine ⟨⟨kept, hkeeps, ?_⟩, hsame, fun more hmore => ?_⟩
  · have hle := (cows_ofRecords_sublist records).length_le
    rw [leftOut, hkeeps.length]
    exact Nat.add_sub_cancel' hle
  · rw [ofRecords_append, hsame, ← ofRecords_append]
    exact ofRecords_append_of_subset hmore

end Fodder.Herd
