import Fodder.Proofs.Herd.Scripts

/-!
# What loading finds

On a sound device, loading reads the count and the slots below it. It gives the cows that could be
read, and leaves a store that holds exactly these, without gaps; a store that held them already is
left alone.
-/
namespace Fodder.HerdStore

open Storage

/-! ## Reading -/

section Reading

variable (device : Device Unit)

theorem count_on_sound : count.on device = (storedCount device.flash, device) := by
  rw [count, on_bind, on_attempt, read_on_sound, storedCount]
  cases device.flash.read space countKey 2 with
  | ok blob => rfl
  | error error => cases error <;> rfl

theorem readSlot_on_sound (index : Nat) :
    (readSlot index).on device =
      ((device.flash.read space (slotKey index) Flash.blobCapacity).bind cowOf, device) := by
  rw [readSlot, on_bind, read_on_sound]
  cases device.flash.read space (slotKey index) Flash.blobCapacity with
  | ok blob => rfl
  | error error => rfl

theorem readable_on_sound (index slots : Nat) :
    (readable index slots).on device = (.ok (storedCows device.flash index slots), device) := by
  induction slots generalizing index with
  | zero => rfl
  | succ slots ih =>
    rw [readable, on_bind, on_attempt, readSlot_on_sound]
    dsimp only
    rw [on_bind, ih, storedCows_succ, storedCow?]
    rfl

theorem loadSettings_on_sound :
    loadSettings.on device = (storedSettings device.flash, device) := by
  rw [loadSettings, on_bind, on_attempt, read_on_sound, storedSettings]
  cases device.flash.read space settingsKey settingsRoom with
  | ok blob => rfl
  | error error => cases error <;> rfl

end Reading

/-! ## Tables in the store -/

variable {flash : Flash} {cows : List Cow} {pending : List Nat} {slots : Nat}

theorem storedCount_lt (h : storedCount flash = .ok slots) : slots < 65536 := by
  rw [storedCount] at h
  split at h
  · rename_i blob hread
    rw [countOf.eq_def] at h
    split at h
    · rename_i low high
      have hlow := low.toNat_lt
      have hhigh := high.toNat_lt
      obtain rfl := Except.ok.inj h
      omega
    · cases h
  · cases h
    decide
  · cases h

theorem fits_of_mem_storedCows {index : Nat} {cow : Cow} (h : cow ∈ storedCows flash index slots) :
    cow.Fits := by
  obtain ⟨slot, -, hslot⟩ := List.mem_filterMap.1 h
  exact fits_of_storedCow? flash hslot

theorem length_storedCows_le (flash : Flash) (index slots : Nat) :
    (storedCows flash index slots).length ≤ slots :=
  (List.length_filterMap_le _ _).trans (List.length_range' ..).le

/-- As many cows as there are slots are found only if none of the slots is unreadable. -/
theorem storedCows_eq_iff {index : Nat} : storedCows flash index cows.length = cows ↔
    ∀ i < cows.length, storedCow? flash (index + i) = cows[i]? := by
  induction cows generalizing index with
  | nil => simp [storedCows]
  | cons cow cows ih =>
    rw [List.length_cons, storedCows_succ]
    constructor
    · intro h i hi
      cases hslot : storedCow? flash index with
      | none =>
        have hshort := length_storedCows_le flash (index + 1) cows.length
        rw [hslot] at h
        simp only [Option.toList_none, List.nil_append] at h
        rw [h, List.length_cons] at hshort
        omega
      | some found =>
        rw [hslot] at h
        obtain ⟨rfl, hrest⟩ := List.cons.inj h
        cases i with
        | zero => exact hslot
        | succ i =>
          have hi : i < cows.length := by omega
          rw [List.getElem?_cons_succ, ← ih.1 hrest i hi]
          congr 1
          omega
    · intro h
      have hslot : storedCow? flash index = some cow := h 0 (by omega)
      have hrest : storedCows flash (index + 1) cows.length = cows := by
        refine ih.2 fun i hi => ?_
        have hnext := h (i + 1) (by omega)
        rw [List.getElem?_cons_succ] at hnext
        rw [← hnext]
        congr 1
        omega
      rw [hslot, hrest]
      rfl

/-- The count and the slots below it are those of a table, but for slots that are still pending. -/
structure Holds (flash : Flash) (cows : List Cow) (pending : List Nat) : Prop where
  count : storedCount flash = .ok cows.length
  slots : ∀ i < cows.length, i ∉ pending → storedCow? flash i = cows[i]?

theorem Holds.lt (h : Holds flash cows pending) : cows.length < 65536 := storedCount_lt h.count

theorem Holds.mono (h : Holds flash cows pending) {more : List Nat} (hsub : pending ⊆ more) :
    Holds flash cows more where
  count := h.count
  slots i hi hmore := h.slots i hi fun hpending => hmore (hsub hpending)

theorem Holds.storedCows_eq (h : Holds flash cows []) : storedCows flash 0 cows.length = cows := by
  rw [storedCows_eq_iff]
  intro i hi
  rw [Nat.zero_add]
  exact h.slots i hi List.not_mem_nil

theorem holds_storedCows (h : storedCount flash = .ok slots)
    (hall : (storedCows flash 0 slots).length = slots) :
    Holds flash (storedCows flash 0 slots) [] where
  count := by rw [hall, h]
  slots i hi _ := by
    have heq := storedCows_eq_iff.1 (congrArg (storedCows flash 0) hall)
    rw [← heq i hi, Nat.zero_add]

/-- A saved cow is in its slot, which is not pending any more. Behind the table it is not seen. -/
theorem Holds.save (h : Holds flash cows pending) {cow : Cow} (hfits : cow.Fits) (index : Nat) :
    Holds (flash.edit (saveEdit cow index)) (cows.set index cow) (pending.filter (· ≠ index)) where
  count := by rw [storedCount_saveEdit, h.count, List.length_set]
  slots i hi hpending := by
    rw [List.length_set] at hi
    rw [storedCow?_saveEdit flash hfits, List.getElem?_set]
    by_cases heq : index = i
    · rw [if_pos heq.symm, if_pos heq, if_pos (heq ▸ hi)]
    · rw [if_neg (Ne.symm heq), if_neg heq]
      refine h.slots i hi fun hmem => hpending ?_
      simpa [Ne.symm heq] using hmem

/-- A save is not seen in a slot that is pending anyway, nor behind the table. -/
theorem Holds.save_unseen (h : Holds flash cows pending) {cow : Cow} (hfits : cow.Fits)
    {index : Nat} (hunseen : index ∈ pending ∨ cows.length ≤ index) :
    Holds (flash.edit (saveEdit cow index)) cows pending where
  count := by rw [storedCount_saveEdit, h.count]
  slots i hi hpending := by
    have hne : i ≠ index := by
      rintro rfl
      rcases hunseen with hmem | hle
      · exact hpending hmem
      · omega
    rw [storedCow?_saveEdit flash hfits, if_neg hne, h.slots i hi hpending]

/-- A truncation leaves the front of a table. -/
theorem Holds.truncate (h : Holds flash cows pending) {size : Nat} (hsize : size ≤ cows.length)
    (former : Nat) : Holds (flash.edited (truncation size former)) (cows.take size) pending where
  count := by
    rw [List.length_take_of_le hsize]
    exact storedCount_truncation flash (hsize.trans_lt h.lt) former
  slots i hi hpending := by
    rw [List.length_take_of_le hsize] at hi
    rw [storedCow?_truncation flash hi, h.slots i (hi.trans_le hsize) hpending,
      List.getElem?_take_of_lt hi]

/-- A cow saved behind a table belongs to it as soon as it is counted, whatever the count was. -/
theorem holds_extend (h : ∀ i < cows.length, i ∉ pending → storedCow? flash i = cows[i]?) {cow : Cow}
    (hfits : cow.Fits) (hlt : cows.length + 1 < 65536) (former : Nat) :
    Holds (flash.edited (saveEdit cow cows.length :: truncation (cows.length + 1) former))
      (cows ++ [cow]) pending where
  count := by
    rw [List.length_append, List.length_singleton]
    exact storedCount_truncation _ hlt former
  slots i hi hpending := by
    rw [List.length_append, List.length_singleton] at hi
    refine (storedCow?_truncation _ hi former).trans ?_
    rw [storedCow?_saveEdit flash hfits]
    by_cases heq : i = cows.length
    · rw [if_pos heq, heq, List.getElem?_concat_length]
    · have hold : i < cows.length := by omega
      rw [if_neg heq, h i hold hpending, List.getElem?_append_left hold]

theorem Holds.schedule (h : Holds flash cows pending) (settings : Settings) :
    Holds (flash.edit (settingsEdit settings)) cows pending where
  count := by rw [storedCount_settingsEdit, h.count]
  slots i hi hpending := by rw [storedCow?_settingsEdit, h.slots i hi hpending]

/-! ## Loading -/

/-- What loading writes: nothing if all slots can be read, and the readable cows without gaps
otherwise. -/
def compaction (flash : Flash) (slots : Nat) : List Edit :=
  let cows := storedCows flash 0 slots
  if cows.length = slots then [] else savings 0 cows ++ truncation cows.length slots

/-- Cows saved from the first slot on are a table as soon as they are counted. -/
theorem holds_savings (flash : Flash) (hfits : ∀ cow ∈ cows, cow.Fits) (hlt : cows.length < 65536)
    (former : Nat) : Holds (flash.edited (savings 0 cows ++ truncation cows.length former)) cows [] where
  count := by
    rw [Flash.edited_append]
    exact storedCount_truncation _ hlt former
  slots i hi _ := by
    have hsaved : storedCow? _ (0 + i) = _ := storedCow?_savings flash hfits hi
    rw [Nat.zero_add] at hsaved
    rw [Flash.edited_append, storedCow?_truncation _ hi, hsaved]

theorem holds_compaction (h : storedCount flash = .ok slots) :
    Holds (flash.edited (compaction flash slots)) (storedCows flash 0 slots) [] := by
  unfold compaction
  dsimp only
  split_ifs with hall
  · exact holds_storedCows h hall
  · have hlength := length_storedCows_le flash 0 slots
    exact holds_savings flash (fun cow => fits_of_mem_storedCows)
      (hlength.trans_lt (storedCount_lt h)) slots

theorem storedSettings_compaction (flash : Flash) (slots : Nat) :
    storedSettings (flash.edited (compaction flash slots)) = storedSettings flash := by
  unfold compaction
  dsimp only
  split_ifs with hall
  · rfl
  · rw [Flash.edited_append, storedSettings_truncation, storedSettings_savings]

theorem loadAll_on_sound {device : Device Unit} (h : storedCount device.flash = .ok slots) :
    loadAll.on device =
      (.ok (storedCows device.flash 0 slots), device.after (compaction device.flash slots) ()) := by
  have hlength := length_storedCows_le device.flash 0 slots
  have hlt := storedCount_lt h
  have hfits : ∀ cow ∈ storedCows device.flash 0 slots, cow.Fits := fun cow => fits_of_mem_storedCows
  rw [loadAll, on_bind, count_on_sound, h]
  dsimp only
  rw [on_bind, readable_on_sound]
  dsimp only
  by_cases hall : (storedCows device.flash 0 slots).length = slots
  · rw [if_neg (not_not_intro hall), compaction, if_pos hall]
    rfl
  · have hcount : (storedCows device.flash 0 slots).length < 65536 := by omega
    rw [if_pos hall, compaction, if_neg hall, on_bind, (saveFrom_carries device hfits 0).on_sound]
    dsimp only
    rw [on_bind, (truncate_carries _ hcount slots).on_sound, Device.after_after]
    rfl

theorem loadAll_on_error {device : Device Unit} {error : StorageError}
    (h : storedCount device.flash = .error error) : loadAll.on device = (.error error, device) := by
  rw [loadAll, on_bind, count_on_sound, h]

end Fodder.HerdStore
