import Fodder.Proofs.Steward.InStep

/-!
# Which upserts cost a stored cow

Out of step with the store, memory can be made to write over a stored cow: an edit goes into the slot
that the table in memory gives, and a new cow is counted by the size of that table. What is written of
the pending slots before depends on the writes that fail, so faults are chosen that hit the writes into
certain slots and nothing else.
-/
namespace Fodder

namespace Herd

variable {herd : Herd} {cow : Cow}

/-! ## Names and collars that no cow has -/

theorem exists_mem_not_mem {α : Type} {candidates taken : List α} (hnodup : candidates.Nodup)
    (h : taken.length < candidates.length) : ∃ a ∈ candidates, a ∉ taken := by
  by_contra hnone
  push Not at hnone
  exact absurd (hnodup.subperm hnone).length_le (Nat.not_le.2 h)

/-- Of 201 values one is taken by no cow of either herd. -/
theorem exists_free {α : Type} (value : Nat → α)
    (hinj : ∀ i < 201, ∀ j < 201, value i = value j → i = j) (f : Cow → α) {herd other : Herd}
    (h : herd.Sound) (hother : other.Sound) :
    ∃ i < 201, (∀ cow ∈ herd.cows, f cow ≠ value i) ∧ ∀ cow ∈ other.cows, f cow ≠ value i := by
  have hnodup : ((List.range 201).map value).Nodup := by
    refine List.nodup_range.map_on fun i hi j hj => ?_
    exact hinj i (List.mem_range.1 hi) j (List.mem_range.1 hj)
  have hsizes : herd.cows.length + other.cows.length < 201 :=
    Nat.lt_succ_of_le (Nat.add_le_add h.size hother.size)
  have hshort : ((herd.cows ++ other.cows).map f).length < ((List.range 201).map value).length := by
    simpa using hsizes
  obtain ⟨a, hmem, hfree⟩ := exists_mem_not_mem hnodup hshort
  obtain ⟨i, hi, rfl⟩ := List.mem_map.1 hmem
  refine ⟨i, List.mem_range.1 hi, fun cow hcow hsame => hfree ?_, fun cow hcow hsame => hfree ?_⟩
  · exact hsame ▸ List.mem_map_of_mem (List.mem_append_left _ hcow)
  · exact hsame ▸ List.mem_map_of_mem (List.mem_append_right _ hcow)

theorem exists_free_collar {herd other : Herd} (h : herd.Sound) (hother : other.Sound) :
    ∃ collar : UInt16, (1 ≤ collar.toNat ∧ collar.toNat ≤ Cow.maxCollar) ∧
      (∀ cow ∈ herd.cows, cow.collar ≠ collar) ∧ ∀ cow ∈ other.cows, cow.collar ≠ collar := by
  have hvalue : ∀ i < 201, (UInt16.ofNat (i + 1)).toNat = i + 1 := by
    intro i hi
    rw [UInt16.toNat_ofNat']
    omega
  have hinj : ∀ i < 201, ∀ j < 201, UInt16.ofNat (i + 1) = UInt16.ofNat (j + 1) → i = j := by
    intro i hi j hj heq
    have hsame := congrArg UInt16.toNat heq
    rw [hvalue i hi, hvalue j hj] at hsame
    omega
  obtain ⟨i, hi, hfree⟩ := exists_free (fun i => UInt16.ofNat (i + 1)) hinj Cow.collar h hother
  refine ⟨UInt16.ofNat (i + 1), ?_, hfree⟩
  rw [hvalue i hi, Cow.maxCollar]
  omega

theorem exists_free_name {herd other : Herd} (h : herd.Sound) (hother : other.Sound) :
    ∃ name : String, (name ≠ "" ∧ name.utf8ByteSize ≤ Cow.nameCapacity) ∧
      (∀ cow ∈ herd.cows, cow.name ≠ name) ∧ ∀ cow ∈ other.cows, cow.name ≠ name := by
  have hfits : ∀ i < 201, HerdStore.slotKey i ≠ "" ∧
      (HerdStore.slotKey i).utf8ByteSize ≤ Cow.nameCapacity := by
    decide +kernel
  obtain ⟨i, hi, hfree⟩ := exists_free HerdStore.slotKey (fun i _ j _ => HerdStore.slotKey_inj.1)
    Cow.name h hother
  exact ⟨HerdStore.slotKey i, hfits i hi, hfree⟩

/-- A cow of which only the name and the collar matter. -/
def calf (name : String) (collar : UInt16) : Cow :=
  ⟨name, "276000123456", collar, ⟨1082130432⟩, 1700000000, []⟩

theorem calf_valid {name : String} {collar : UInt16} (hname : name ≠ "")
    (hcollar : 1 ≤ collar.toNat ∧ collar.toNat ≤ Cow.maxCollar) : (calf name collar).Valid := by
  have hrest : (calf "Anna" 1).Valid := (Cow.flaw?_eq_none_iff _).1 (by decide +kernel)
  exact { hrest with name := hname, collar := hcollar }

theorem calf_fits {name : String} (hname : name.utf8ByteSize ≤ Cow.nameCapacity) (collar : UInt16) :
    (calf name collar).Fits := by
  have hrest : (calf "Anna" 1).Fits := ⟨by decide, by decide, by decide⟩
  exact { hrest with name := hname }

/-- The herd takes a record without flaws whose collar no cow wears, unless it is new and there is no
room. -/
theorem exists_upsert_eq_ok (hvalid : cow.Valid)
    (hcollar : ∀ other ∈ herd.cows, other.collar ≠ cow.collar)
    (hroom : cow.name ∈ herd.names ∨ herd.size < capacity) :
    ∃ placed, herd.upsert cow = .ok placed := by
  have hworn : ∀ place, herd.wornElsewhere cow.collar place = false := by
    intro place
    rw [wornElsewhere, List.any_eq_false]
    rintro ⟨other, index⟩ hmem
    have hother := List.mem_of_getElem? (List.mem_zipIdx_iff_getElem?.1 hmem)
    simp [hcollar other hother]
  unfold upsert
  simp only [(Cow.flaw?_eq_none_iff cow).2 hvalid, hworn, Bool.false_eq_true, if_false]
  cases hposition : herd.position? cow.name with
  | some index => exact ⟨_, rfl⟩
  | none =>
    have hlt := hroom.resolve_left (position?_eq_none_iff.1 hposition)
    simp [Nat.not_le.2 hlt]

end Herd

namespace Steward

open HerdStore Storage

/-! ## Faults that hit the writes into some slots -/

structure Refusing (slots : List Nat) where

instance (slots : List Nat) : FaultSource (Refusing slots) where
  next faults call key :=
    (if call = .write ∧ key ∈ slots.map slotKey then some .ioError else none, faults)

section Refusing

variable {refused : List Nat}

/-- An edit that the faults let pass. -/
def Passes (refused : List Nat) (edit : Edit) : Prop :=
  edit.call = .write → edit.key ∉ refused.map slotKey

theorem passes_saveEdit {cow : Cow} {slot : Nat} (h : slot ∉ refused) :
    Passes refused (saveEdit cow slot) := by
  intro _ hmem
  obtain ⟨other, hother, hkey⟩ := List.mem_map.1 hmem
  exact h (slotKey_inj.1 hkey ▸ hother)

theorem passes_truncation (count former : Nat) :
    ∀ edit ∈ truncation count former, Passes refused edit := by
  refine List.forall_mem_cons.2 ⟨?_, fun edit hedit => ?_⟩
  · intro _ hmem
    obtain ⟨other, -, hkey⟩ := List.mem_map.1 hmem
    exact slotKey_ne_countKey other hkey
  · obtain ⟨index, -, rfl⟩ := List.mem_map.1 hedit
    exact fun hcall => nomatch hcall

theorem Passes.verdict {edit : Edit} (h : Passes refused edit) (faults : Refusing refused) :
    (FaultSource.next faults edit.call edit.key).1 = none :=
  if_neg fun hhit => h hhit.1 hhit.2

theorem carries_of_passes {op : Storage (Refusing refused) Unit} {edits : List Edit}
    {device : Device (Refusing refused)} (h : op.Carries edits device)
    (hpass : ∀ edit ∈ edits, Passes refused edit) :
    op.on device = (.ok (), device.after edits ⟨⟩) := by
  rcases h with ⟨faults, hdone⟩ | ⟨made, failed, rest, error, after, rfl, ⟨faults, hfault⟩, -, -⟩
  · exact hdone
  · rw [(hpass failed (by simp)).verdict faults] at hfault
    cases hfault

theorem Plan.Ends.ok_of_passes {ε : Type} {script : List Edit} {done undone : Engine}
    {s : Steward (Refusing refused)} {outcome : Except ε Unit × Steward (Refusing refused)}
    (h : Plan.Ends ⟨script, done, undone⟩ s outcome) (hpass : ∀ edit ∈ script, Passes refused edit) :
    outcome.1 = .ok () := by
  rcases h with
    ⟨faults, rfl⟩ | ⟨made, failed, rest, cause, error, device, rfl, ⟨faults, hfault⟩, -, rfl⟩
  · rfl
  · rw [(hpass failed (by simp)).verdict faults] at hfault
    cases hfault

theorem save_refused {device : Device (Refusing refused)} {cow : Cow} (hfits : cow.Fits) {slot : Nat}
    (h : slot ∈ refused) :
    ∃ after, (save cow slot).on device = (.error .ioError, after) ∧ after.flash = device.flash := by
  have hnext : FaultSource.next device.faults (saveEdit cow slot).call (saveEdit cow slot).key =
      (some StorageError.ioError, device.faults) :=
    congrArg (·, device.faults) (if_pos ⟨rfl, List.mem_map_of_mem h⟩)
  have hmake := make_on (saveEdit_fits hfits slot) device
  rw [hnext] at hmake
  exact ⟨_, hmake, rfl⟩

/-- A flush writes the pending cows that are not refused. -/
structure Written (herd : Herd) (pending refused : List Nat) (cows written : List Cow) : Prop where
  length : written.length = cows.length
  at? : ∀ i < cows.length, written[i]? =
    if i ∈ pending ∧ i ∉ refused ∧ i < herd.size then herd.cows[i]? else cows[i]?

theorem Written.of_refused {herd : Herd} {pending : List Nat} {cows written : List Cow}
    (h : Written herd pending refused cows written) {i : Nat} (hi : i < cows.length)
    (hrefused : i < herd.size → i ∈ refused) : written[i]? = cows[i]? := by
  rw [h.at? i hi, if_neg fun hopen => hopen.2.1 (hrefused hopen.2.2)]

theorem Written.of_open {herd : Herd} {pending : List Nat} {cows written : List Cow}
    (h : Written herd pending refused cows written) {i : Nat} (hi : i < cows.length)
    (hpending : i ∈ pending) (hopen : i ∉ refused) (hlt : i < herd.size) :
    written[i]? = herd.cows[i]? := by
  rw [h.at? i hi, if_pos ⟨hpending, hopen, hlt⟩]

/-- With all places but two refused, the pending cow at one of them is written, and what stands at a
third stays. -/
theorem Written.pair {herd : Herd} {pending : List Nat} {cows written : List Cow} {p j k : Nat}
    {cow other : Cow} (h : Written herd pending
      ((List.range herd.size).filter fun i => i ≠ p ∧ i ≠ k) cows written)
    (hpending : p ∈ pending) (hp : p < cows.length) (hcow : herd.cows[p]? = some cow)
    (hother : cows[j]? = some other) (hjp : j ≠ p) (hjk : j ≠ k) :
    written[p]? = some cow ∧ written[j]? = some other := by
  obtain ⟨hplt, -⟩ := List.getElem?_eq_some_iff.1 hcow
  obtain ⟨hj, -⟩ := List.getElem?_eq_some_iff.1 hother
  refine ⟨(h.of_open hp hpending (by simp) hplt).trans hcow, ?_⟩
  refine (h.of_refused hj fun hlt => ?_).trans hother
  exact List.mem_filter.2 ⟨List.mem_range.2 hlt, by simpa using ⟨hjp, hjk⟩⟩

theorem Written.skip {herd : Herd} {slots : List Nat} {slot : Nat} {cows written : List Cow}
    (h : Written herd slots refused cows written) (hskip : slot ∈ refused ∨ herd.size ≤ slot) :
    Written herd (slot :: slots) refused cows written := by
  refine ⟨h.length, fun i hi => (h.at? i hi).trans ?_⟩
  have hsame : i ∈ slots ∧ i ∉ refused ∧ i < herd.size ↔
      i ∈ slot :: slots ∧ i ∉ refused ∧ i < herd.size := by
    rw [List.mem_cons]
    refine ⟨fun ⟨hmem, hrest⟩ => ⟨.inr hmem, hrest⟩, fun ⟨hmem, hopen, hlt⟩ => ⟨?_, hopen, hlt⟩⟩
    refine hmem.resolve_left ?_
    rintro rfl
    exact hskip.elim hopen (Nat.not_le.2 hlt)
  simp only [hsame]

theorem Written.save {herd : Herd} {slots : List Nat} {slot : Nat} {cow : Cow}
    {cows written : List Cow} (h : Written herd slots refused (cows.set slot cow) written)
    (hopen : slot ∉ refused) (hcow : herd.cows[slot]? = some cow) :
    Written herd (slot :: slots) refused cows written := by
  refine ⟨h.length.trans List.length_set, fun i hi => ?_⟩
  rw [h.at? i (by rwa [List.length_set]), List.getElem?_set]
  by_cases heq : slot = i
  · subst heq
    obtain ⟨hlt, -⟩ := List.getElem?_eq_some_iff.1 hcow
    have hlt : slot < herd.size := hlt
    simp [hopen, hlt, hi, hcow]
  · simp [heq, Ne.symm heq]

theorem exists_written_flushSlots {herd : Herd} (hfits : ∀ cow ∈ herd.cows, cow.Fits)
    (pending : List Nat) {cows : List Cow} {device : Device (Refusing refused)}
    (h : Holds device.flash cows []) :
    ∃ written, Written herd pending refused cows written ∧
      Holds (flushSlots herd pending device).device.flash written [] := by
  induction pending generalizing cows device with
  | nil => exact ⟨cows, ⟨rfl, fun i _ => by simp⟩, h⟩
  | cons slot slots ih =>
    unfold flushSlots
    cases hat : herd.at? slot with
    | none =>
      obtain ⟨written, hwritten, hholds⟩ := ih h
      exact ⟨written, hwritten.skip (.inr (List.getElem?_eq_none_iff.1 hat)), hholds⟩
    | some cow =>
      have hcow := hfits cow (List.mem_of_getElem? hat)
      dsimp only
      by_cases hrefused : slot ∈ refused
      · obtain ⟨after, hfailed, hflash⟩ := save_refused hcow hrefused
        obtain ⟨written, hwritten, hholds⟩ := ih (hflash ▸ h)
        rw [hfailed]
        exact ⟨written, hwritten.skip (.inl hrefused), hholds⟩
      · have hsaved := carries_of_passes (save_carries device hcow slot)
          (List.forall_mem_singleton.2 (passes_saveEdit hrefused))
        have hstored : Holds (device.after [saveEdit cow slot] ⟨⟩).flash _ [] := h.save hcow slot
        obtain ⟨written, hwritten, hholds⟩ := ih hstored
        rw [hsaved]
        exact ⟨written, hwritten.save hrefused hat, hholds⟩

end Refusing

/-! ## Upserts under such faults -/

section Upserts

variable {φ : Type} {s : Steward φ} (hspares : Spares s) (hsound : s.engine.Sound)
  (htidy : Tidy s.device.flash) (refused : List Nat)

include hsound htidy

theorem exists_written_flush : ∃ written,
    Written s.engine.herd s.engine.pending refused (loaded s.device.flash).cows written ∧
      Holds (s.withFaults (⟨⟩ : Refusing refused)).flush.2.device.flash written [] := by
  have hstart : Holds (s.withFaults (⟨⟩ : Refusing refused)).device.flash
      (loaded s.device.flash).cows [] := htidy
  exact exists_written_flushSlots hsound.fits s.engine.pending hstart

include hspares

/-- A cow of the herd in memory is given a collar of her own. -/
theorem Spares.edited {index : Nat} {old : Cow} (hold : s.engine.herd.cows[index]? = some old)
    (hopen : index ∉ refused) :
    ∃ written edited,
      Written s.engine.herd s.engine.pending refused (loaded s.device.flash).cows written ∧
        edited.name = old.name ∧ ∀ other ∈ (loaded s.device.flash).cows, other.name ≠ old.name →
          other.name ∈ (Herd.ofRecords (written.set index edited)).names := by
  have hmem := List.mem_of_getElem? hold
  obtain ⟨collar, hrange, hfree, hunstored⟩ :=
    Herd.exists_free_collar hsound.herd (sound_loaded s.device.flash)
  let cow : Cow := { old with collar }
  have hfits : cow.Fits := { hsound.fits old hmem with }
  have hvalid : cow.Valid := { hsound.herd.valid old hmem with collar := hrange }
  have hname : old.name ∈ s.engine.herd.names := List.mem_map_of_mem hmem
  obtain ⟨written, hwritten, hholds⟩ := exists_written_flush hsound htidy refused
  obtain ⟨placed, hupsert⟩ := Herd.exists_upsert_eq_ok hvalid hfree (.inl hname)
  obtain ⟨-, ⟨place, former, hget, hformer, hsame, -, rfl⟩ | ⟨hget, -⟩⟩ := Herd.upsert_eq_ok hupsert
  · obtain rfl : place = index := hsound.herd.name_inj hformer hold hsame
    let edited : Cow := { cow with feeds := s.engine.herd.feedsAfter place cow }
    have hstored : edited.Fits := fits_feedsAfter hsound.fits hfits place
    have hends := upsert_edit_ends (s := s.withFaults (⟨⟩ : Refusing refused)) hstored hupsert hget
      hformer
    have hok := hends.ok_of_passes (List.forall_mem_singleton.2 (passes_saveEdit hopen))
    have hloaded : loaded ((s.withFaults (⟨⟩ : Refusing refused)).flush.2.device.flash.edited
        [saveEdit edited place]) = _ := loaded_of_holds (hholds.save hstored place)
    refine ⟨written, edited, hwritten, rfl, fun other hother hne => ?_⟩
    have hfound := hspares (Refusing refused) ⟨⟩ cow hfits hok other hother hne
      (hunstored other hother)
    rwa [hends.flash_of_ok hok, hloaded] at hfound
  · exact absurd hname (Herd.get?_eq_none_iff.1 hget)

/-- A new cow comes to the herd in memory, which has at most as many as are stored. -/
theorem Spares.created (hroom : s.engine.herd.size < Herd.capacity)
    (hle : s.engine.herd.size ≤ (loaded s.device.flash).size) (hopen : s.engine.herd.size ∉ refused) :
    ∃ written created,
      Written s.engine.herd s.engine.pending refused (loaded s.device.flash).cows written ∧
        (∀ other ∈ (loaded s.device.flash).cows, other.name ≠ created.name) ∧
          ∀ other ∈ (loaded s.device.flash).cows, other.name ∈
            (Herd.ofRecords (written.take s.engine.herd.size ++ [created])).names := by
  have hstored := sound_loaded s.device.flash
  obtain ⟨collar, hrange, hfree, hunstored⟩ := Herd.exists_free_collar hsound.herd hstored
  obtain ⟨name, ⟨hne, hsize⟩, hnew, hunknown⟩ := Herd.exists_free_name hsound.herd hstored
  have hfits := Herd.calf_fits hsize collar
  have hvalid := Herd.calf_valid hne hrange
  obtain ⟨written, hwritten, hholds⟩ := exists_written_flush hsound htidy refused
  obtain ⟨placed, hupsert⟩ := Herd.exists_upsert_eq_ok hvalid hfree (.inr hroom)
  obtain ⟨-, ⟨place, former, hget, -⟩ | ⟨hget, -, -, rfl⟩⟩ := Herd.upsert_eq_ok hupsert
  · obtain ⟨hmem, hsame⟩ := Herd.get?_eq_some hget
    exact absurd hsame (hnew former hmem)
  · obtain ⟨former, hends⟩ := upsert_create_ends (s := s.withFaults (⟨⟩ : Refusing refused)) hfits
      hupsert hget hroom
    have hok := hends.ok_of_passes
      (List.forall_mem_cons.2 ⟨passes_saveEdit hopen, passes_truncation _ former⟩)
    have hlength : (written.take s.engine.herd.size).length = s.engine.herd.size :=
      List.length_take_of_le (hwritten.length ▸ hle)
    have hfront : ∀ i < (written.take s.engine.herd.size).length, i ∉ ([] : List Nat) →
        storedCow? (s.withFaults (⟨⟩ : Refusing refused)).flush.2.device.flash i =
          (written.take s.engine.herd.size)[i]? := by
      intro i hi hnone
      have hplace : i < written.length := hi.trans_le (List.length_take_le' _ _)
      rw [hholds.slots i hplace hnone, List.getElem?_take_of_lt (hlength ▸ hi)]
    have hlt : (written.take s.engine.herd.size).length + 1 < 65536 := by
      rw [hlength]
      exact (Nat.succ_le_of_lt hroom).trans_lt (by decide)
    have hextended := holds_extend hfront hfits hlt former
    rw [hlength] at hextended
    refine ⟨written, Herd.calf name collar, hwritten, hunknown, fun other hother => ?_⟩
    have hfound := hspares (Refusing refused) ⟨⟩ _ hfits hok other hother (hunknown other hother)
      (hunstored other hother)
    rw [hends.flash_of_ok hok] at hfound
    rwa [← loaded_of_holds hextended]

end Upserts

/-! ## Out of step -/

/-- Two records with one collar are not both taken over, and where all names differ that can be told by
the names. -/
theorem place_eq_of_found {records : List Cow} (hnames : (records.map Cow.name).Nodup) {i j : Nat}
    {a b : Cow} (hi : records[i]? = some a) (hj : records[j]? = some b) (hcollar : a.collar = b.collar)
    (ha : a.name ∈ (Herd.ofRecords records).names) (hb : b.name ∈ (Herd.ofRecords records).names) :
    i = j := by
  have hmem {k : Nat} {cow : Cow} (hk : records[k]? = some cow)
      (hname : cow.name ∈ (Herd.ofRecords records).names) : cow ∈ (Herd.ofRecords records).cows := by
    obtain ⟨found, hfound, hsame⟩ := List.mem_map.1 hname
    have hrecord := (Herd.cows_ofRecords_sublist records).subset hfound
    obtain ⟨place, hplace⟩ := List.mem_iff_getElem?.1 hrecord
    obtain rfl := Herd.nodup_map_iff_getElem?.1 hnames _ _ _ _ hplace hk hsame
    exact Option.some.inj (hplace.symm.trans hk) ▸ hfound
  obtain ⟨m, hm⟩ := List.mem_iff_getElem?.1 (hmem hi ha)
  obtain ⟨n, hn⟩ := List.mem_iff_getElem?.1 (hmem hj hb)
  obtain rfl := (Herd.sound_ofRecords records).collar_inj hm hn hcollar
  obtain rfl : a = b := Option.some.inj (hm.symm.trans hn)
  exact Herd.nodup_map_iff_getElem?.1 hnames _ _ _ _ hi hj rfl

section OutOfStep

variable {φ : Type} {s : Steward φ} (hspares : Spares s) (hsound : s.engine.Sound)
  (htidy : Tidy s.device.flash)

include hspares hsound htidy

/-- With fewer cows in memory than in the store, a new cow would cut the store to less than it has. -/
theorem Spares.size_le : (loaded s.device.flash).size ≤ s.engine.herd.size := by
  by_contra hlt
  push Not at hlt
  have hstored := sound_loaded s.device.flash
  have hopen : s.engine.herd.size ∉ List.range s.engine.herd.size := by simp
  obtain ⟨written, created, hwritten, hnew, hfound⟩ := hspares.created hsound htidy
    (List.range s.engine.herd.size) (hlt.trans_le hstored.size) hlt.le hopen
  have hlost := List.getElem?_eq_getElem hlt
  have hmem := List.mem_of_getElem? hlost
  obtain ⟨cow, hcow, hname⟩ := List.mem_map.1 (hfound _ hmem)
  rcases List.mem_append.1 ((Herd.cows_ofRecords_sublist _).subset hcow) with hcow | hcow
  · obtain ⟨i, hi⟩ := List.mem_iff_getElem?.1 hcow
    rw [List.getElem?_take] at hi
    split_ifs at hi with hfront
    rw [hwritten.of_refused (hfront.trans hlt) List.mem_range.2] at hi
    exact hfront.ne (hstored.name_inj hi hlost hname)
  · obtain rfl := List.mem_singleton.1 hcow
    exact hnew _ hmem hname.symm

/-- With another cow in the place of a stored one, an edit of hers would be written over that one. -/
theorem Spares.name_eq {i : Nat} {stored cow : Cow}
    (hi : (loaded s.device.flash).cows[i]? = some stored) (hcow : s.engine.herd.cows[i]? = some cow) :
    stored.name = cow.name := by
  by_contra hne
  have hstored := sound_loaded s.device.flash
  have hopen : i ∉ (List.range s.engine.herd.size).filter (· ≠ i) := by simp
  obtain ⟨written, edited, hwritten, hedited, hfound⟩ := hspares.edited hsound htidy _ hcow hopen
  obtain ⟨found, hmem, hname⟩ := List.mem_map.1 (hfound stored (List.mem_of_getElem? hi) hne)
  obtain ⟨j, hj⟩ := List.mem_iff_getElem?.1 ((Herd.cows_ofRecords_sublist _).subset hmem)
  rw [List.getElem?_set] at hj
  split_ifs at hj with heq
  · obtain rfl := Option.some.inj hj
    exact hne (hname.symm.trans hedited)
  · obtain ⟨hlt, -⟩ := List.getElem?_eq_some_iff.1 hj
    rw [hwritten.length] at hlt
    have hrefused : j < s.engine.herd.size → j ∈ (List.range s.engine.herd.size).filter (· ≠ i) :=
      fun hlt => List.mem_filter.2 ⟨List.mem_range.2 hlt, by simpa using Ne.symm heq⟩
    rw [hwritten.of_refused hlt hrefused] at hj
    exact heq (hstored.name_inj hi hj hname.symm)

/-- What was written has the names that are stored and in memory. -/
theorem Spares.name_written {refused : List Nat} {written : List Cow}
    (hwritten : Written s.engine.herd s.engine.pending refused (loaded s.device.flash).cows written)
    {i : Nat} {cow : Cow} (hi : written[i]? = some cow) :
    (∃ stored, (loaded s.device.flash).cows[i]? = some stored ∧ stored.name = cow.name) ∧
      ∃ known, s.engine.herd.cows[i]? = some known ∧ known.name = cow.name := by
  obtain ⟨hlt, -⟩ := List.getElem?_eq_some_iff.1 hi
  rw [hwritten.length] at hlt
  have hstored := List.getElem?_eq_getElem hlt
  have hknown := List.getElem?_eq_getElem (hlt.trans_le (hspares.size_le hsound htidy))
  have hname := hspares.name_eq hsound htidy hstored hknown
  rw [hwritten.at? i hlt] at hi
  split_ifs at hi
  · obtain rfl := Option.some.inj (hknown.symm.trans hi)
    exact ⟨⟨_, hstored, hname⟩, _, hknown, rfl⟩
  · obtain rfl := Option.some.inj (hstored.symm.trans hi)
    exact ⟨⟨_, hstored, rfl⟩, _, hknown, hname.symm⟩

theorem Spares.nodup_written {refused : List Nat} {written : List Cow}
    (hwritten : Written s.engine.herd s.engine.pending refused (loaded s.device.flash).cows written) :
    (written.map Cow.name).Nodup := by
  rw [Herd.nodup_map_iff_getElem?]
  intro i j a b hi hj hname
  obtain ⟨-, known, hknown, ha⟩ := hspares.name_written hsound htidy hwritten hi
  obtain ⟨-, other, hother, hb⟩ := hspares.name_written hsound htidy hwritten hj
  exact hsound.herd.name_inj hknown hother (ha.trans (hname.trans hb.symm))

section Collars

variable {p j : Nat} {cow other : Cow} (hpending : p ∈ s.engine.pending)
  (hp : p < (loaded s.device.flash).size) (hcow : s.engine.herd.cows[p]? = some cow)
  (hother : (loaded s.device.flash).cows[j]? = some other) (hcollar : other.collar = cow.collar)

include hpending hp hcow hother hcollar

/-- The pending cow is written, and a third cow is edited. -/
theorem Spares.eq_of_third {k : Nat} {third : Cow} (hthird : s.engine.herd.cows[k]? = some third)
    (hkp : k ≠ p) (hkj : k ≠ j) : p = j := by
  by_contra hne
  have hopen : k ∉ (List.range s.engine.herd.size).filter fun i => i ≠ p ∧ i ≠ k := by simp
  obtain ⟨written, edited, hwritten, hedited, hfound⟩ := hspares.edited hsound htidy _ hthird hopen
  obtain ⟨hpat, hjat⟩ := hwritten.pair hpending hp hcow hother (Ne.symm hne) (Ne.symm hkj)
  obtain ⟨⟨stored, hstored, hname⟩, -⟩ := hspares.name_written hsound htidy hwritten hpat
  obtain ⟨-, known, hknown, hsame⟩ := hspares.name_written hsound htidy hwritten hjat
  have hnames : ((written.set k edited).map Cow.name).Nodup := by
    refine Herd.nodup_map_set (hspares.nodup_written hsound htidy hwritten) fun i found hi heq => ?_
    obtain ⟨-, former, hformer, hnamed⟩ := hspares.name_written hsound htidy hwritten hi
    exact hsound.herd.name_inj hformer hthird (hnamed.trans (heq.trans hedited))
  have hcowname : cow.name ≠ third.name := fun heq => hkp (hsound.herd.name_inj hthird hcow heq.symm)
  have hothername : other.name ≠ third.name := fun heq =>
    hkj (hsound.herd.name_inj hthird hknown (heq.symm.trans hsame.symm))
  have hfoundcow := hfound stored (List.mem_of_getElem? hstored) (hname ▸ hcowname)
  have hfoundother := hfound other (List.mem_of_getElem? hother) hothername
  refine hne (place_eq_of_found hnames ?_ ?_ hcollar.symm (hname ▸ hfoundcow) hfoundother)
  · rw [List.getElem?_set_ne hkp, hpat]
  · rw [List.getElem?_set_ne hkj, hjat]

/-- Where there is no third cow, the pending cow is written, and a new one is created. -/
theorem Spares.eq_of_pair (hpair : s.engine.herd.size ≤ 2) : p = j := by
  by_contra hne
  obtain ⟨hplt, -⟩ := List.getElem?_eq_some_iff.1 hcow
  obtain ⟨hjlt, -⟩ := List.getElem?_eq_some_iff.1 hother
  have hplt : p < s.engine.herd.size := hplt
  have hjlt : j < (loaded s.device.flash).size := hjlt
  have hle := hspares.size_le hsound htidy
  have hsizes : s.engine.herd.size = (loaded s.device.flash).size := by omega
  have hroom : s.engine.herd.size < Herd.capacity := hpair.trans_lt (by decide)
  have hopen : s.engine.herd.size ∉
      (List.range s.engine.herd.size).filter fun i => i ≠ p ∧ i ≠ s.engine.herd.size := by simp
  obtain ⟨written, created, hwritten, hnew, hfound⟩ :=
    hspares.created hsound htidy _ hroom hsizes.le hopen
  have hall : written.take s.engine.herd.size = written :=
    List.take_of_length_le (hwritten.length.trans_le hsizes.ge)
  rw [hall] at hfound
  obtain ⟨hpat, hjat⟩ := hwritten.pair hpending hp hcow hother (Ne.symm hne) (hsizes ▸ hjlt.ne)
  obtain ⟨⟨stored, hstored, hname⟩, -⟩ := hspares.name_written hsound htidy hwritten hpat
  have hnames : ((written ++ [created]).map Cow.name).Nodup := by
    refine Herd.nodup_map_concat (hspares.nodup_written hsound htidy hwritten) fun found hmem heq => ?_
    obtain ⟨i, hi⟩ := List.mem_iff_getElem?.1 hmem
    obtain ⟨⟨former, hformer, hnamed⟩, -⟩ := hspares.name_written hsound htidy hwritten hi
    exact hnew former (List.mem_of_getElem? hformer) (hnamed.trans heq)
  have hfoundcow := hfound stored (List.mem_of_getElem? hstored)
  have hfoundother := hfound other (List.mem_of_getElem? hother)
  refine hne (place_eq_of_found hnames ?_ ?_ hcollar.symm (hname ▸ hfoundcow) hfoundother)
  · exact List.getElem?_append_left (List.getElem?_eq_some_iff.1 hpat).1 ▸ hpat
  · exact List.getElem?_append_left (List.getElem?_eq_some_iff.1 hjat).1 ▸ hjat

end Collars

theorem Spares.inStep : InStep s where
  names := by
    have hle := hspares.size_le hsound htidy
    refine List.prefix_iff_getElem?.2 fun i hi => ?_
    have hi : i < (loaded s.device.flash).cows.length := by rwa [Herd.names, List.length_map] at hi
    have hknown := List.getElem?_eq_getElem (hi.trans_le hle)
    have hname := hspares.name_eq hsound htidy (List.getElem?_eq_getElem hi) hknown
    rw [Herd.names, List.getElem?_map, hknown, Option.map_some, ← hname]
    simp [Herd.names]
  collars p hpending hp cow hcow other hmem hcollar := by
    obtain ⟨j, hother⟩ := List.mem_iff_getElem?.1 hmem
    have hsame : p = j := by
      by_cases hpair : s.engine.herd.size ≤ 2
      · exact hspares.eq_of_pair hsound htidy hpending hp hcow hother hcollar hpair
      · obtain ⟨k, hk, hkp, hkj⟩ : ∃ k < 3, k ≠ p ∧ k ≠ j := by
          by_contra hnone
          push Not at hnone
          have h0 := hnone 0
          have h1 := hnone 1
          have h2 := hnone 2
          omega
        have hthird := List.getElem?_eq_getElem (show k < s.engine.herd.cows.length from
          hk.trans_le (Nat.not_le.1 hpair))
        exact hspares.eq_of_third hsound htidy hpending hp hcow hother hcollar hthird hkp hkj
    subst hsame
    exact hspares.name_eq hsound htidy hother hcow

end OutOfStep

/-- Whatever a device held and whichever calls failed since, upserts cost no other stored cow exactly
as long as memory is in step with the store, if the store is tidy. -/
theorem spares_iff_inStep {φ : Type} [FaultSource φ] (device : Device φ) (operations : List Operation)
    (htidy : Tidy ((boot device).run operations).device.flash) :
    Spares ((boot device).run operations) ↔ InStep ((boot device).run operations) := by
  have hsound : ((boot device).run operations).engine.Sound := sound_run (sound_boot device) operations
  exact ⟨fun hspares => hspares.inStep hsound htidy, fun hstep => hstep.spares hsound htidy⟩

/-- In a tidy store, having a place says no more than being in step. -/
theorem inPlace_iff_inStep {φ : Type} {s : Steward φ} (hsound : s.engine.Sound)
    (htidy : Tidy s.device.flash) : InPlace s ↔ InStep s :=
  ⟨fun hplaces => (hplaces.spares hsound).inStep hsound htidy,
    fun hstep => hstep.inPlace hsound htidy⟩

/-- Whatever else the slots below the count hold, upserts cost no stored cow that has her place. -/
theorem spares_of_inPlace {φ : Type} [FaultSource φ] (device : Device φ)
    (operations : List Operation) (h : InPlace ((boot device).run operations)) :
    Spares ((boot device).run operations) :=
  h.spares (sound_run (sound_boot device) operations)

/-- A start that leaves out a flawed record lowers the count, but leaves the record in its slot. -/
example :
    let s := boot (Device.sound strayRecord)
    ¬Tidy s.device.flash ∧ Spares s := by
  intro s
  have hcows : (loaded s.device.flash).cows = [Herd.calf "Anna" 1] := by decide +kernel
  have hcount : storedCount s.device.flash = .ok 2 := by decide +kernel
  constructor
  · intro htidy
    have hcounts := hcount.symm.trans htidy.count
    rw [hcows] at hcounts
    cases hcounts
  · refine spares_of_inPlace (Device.sound strayRecord) [] fun cow hcow => ⟨0, ?_⟩
    have hcow : cow ∈ (loaded s.device.flash).cows := hcow
    rw [hcows, List.mem_singleton] at hcow
    subst hcow
    exact
      { counted := ⟨2, hcount, by decide⟩
        stored := by decide +kernel
        known := ⟨Herd.calf "Anna" 1, by decide +kernel, rfl⟩
        before := fun _ _ i hi => absurd hi (Nat.not_lt_zero i) }

/-- Of three cows the first is deleted. The last one is saved in her slot and the count is lowered, but
the slot behind it cannot be erased: the herd in memory goes back, the count does not. -/
def deletionHalfway : Steward FaultPlan :=
  let create (name : String) (collar : UInt16) (fits : name.utf8ByteSize ≤ Cow.nameCapacity) :=
    Operation.request (.upsert (Herd.calf name collar) (Herd.calf_fits fits collar))
  (boot { faults := ⟨[{ call := .erase, key := some "c2", error := .ioError }]⟩ }).run
    [create "Anna" 1 (by decide), create "Berta" 2 (by decide), create "Clara" 3 (by decide),
      .request (.delete "Anna")]

theorem tidy_deletionHalfway : Tidy deletionHalfway.device.flash := by
  constructor
  · decide +kernel
  · decide +kernel

theorem not_inStep_deletionHalfway : ¬InStep deletionHalfway := by
  intro h
  have hnames := h.names
  revert hnames
  decide +kernel

theorem spares_iff_inStep_deletionHalfway :
    Tidy deletionHalfway.device.flash ∧ ¬InStep deletionHalfway ∧ ¬Spares deletionHalfway := by
  refine ⟨tidy_deletionHalfway, not_inStep_deletionHalfway, fun hspares => ?_⟩
  exact not_inStep_deletionHalfway ((spares_iff_inStep _ _ tidy_deletionHalfway).1 hspares)

/-- An edit of Berta, in whose course nothing fails, writes Anna over Clara's only record. -/
theorem not_spares_deletionHalfway :
    let berta : Cow := { Herd.calf "Berta" 2 with ration := ⟨1073741824⟩ }
    let outcome := (deletionHalfway.withFaults ()).upsert berta
    deletionHalfway.engine.herd.names = ["Anna", "Berta", "Clara"] ∧
      (loaded deletionHalfway.device.flash).names = ["Clara", "Berta"] ∧ outcome.1 = .ok () ∧
      (loaded outcome.2.device.flash).names = ["Anna", "Berta"] ∧ ¬Spares deletionHalfway := by
  intro berta outcome
  have hok : outcome.1 = .ok () := by decide +kernel
  have hafter : (loaded outcome.2.device.flash).names = ["Anna", "Berta"] := by decide +kernel
  have hclara : Herd.calf "Clara" 3 ∈ (loaded deletionHalfway.device.flash).cows := by decide +kernel
  refine ⟨by decide +kernel, by decide +kernel, hok, hafter, fun hspares => ?_⟩
  have hfits : berta.Fits := ⟨by decide, by decide, by decide⟩
  have hfound := hspares Unit () berta hfits hok _ hclara (by decide) (by decide)
  rw [hafter] at hfound
  revert hfound
  decide

end Steward

end Fodder
