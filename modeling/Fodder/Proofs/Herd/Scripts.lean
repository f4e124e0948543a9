import Fodder.Proofs.Herd.Stored

/-!
# The scripts of the store

Whatever the store writes or erases is a script of its edits: cows into their slots, or a count and
then the slots that it drops. A slot below a new count is therefore never touched on its account, and
every first part of a truncation beyond the count itself is a truncation again.
-/
namespace Fodder.HerdStore

open Storage

/-! ## Scripts and what they leave -/

/-- Writes a count and erases the slots from there up to the former count. -/
def truncation (count former : Nat) : List Edit :=
  countEdit count :: (List.range' count (former - count)).map eraseEdit

/-- Saves cows into consecutive slots. -/
def savings (index : Nat) : List Cow → List Edit
  | [] => []
  | cow :: cows => saveEdit cow index :: savings (index + 1) cows

theorem take_truncation (count former n : Nat) :
    (truncation count former).take (n + 1) = truncation count (count + min n (former - count)) := by
  rw [truncation, truncation, List.take_succ_cons, ← List.map_take, Nat.add_sub_cancel_left]
  rcases Nat.le_total n (former - count) with hle | hle
  · rw [List.take_range'_of_length_ge hle, Nat.min_eq_left hle]
  · rw [List.take_range'_of_length_le hle, Nat.min_eq_right hle]

theorem length_savings (index : Nat) (cows : List Cow) : (savings index cows).length = cows.length := by
  induction cows generalizing index with
  | nil => rfl
  | cons cow cows ih => rw [savings, List.length_cons, ih, List.length_cons]

theorem take_savings (index n : Nat) (cows : List Cow) :
    (savings index cows).take n = savings index (cows.take n) := by
  induction cows generalizing index n with
  | nil => rw [savings, List.take_nil, List.take_nil, savings]
  | cons cow cows ih =>
    cases n with
    | zero => rfl
    | succ n => rw [savings, List.take_succ_cons, ih, List.take_succ_cons, savings]

variable (flash : Flash)

theorem storedCount_erased (slots : List Nat) :
    storedCount (flash.edited (slots.map eraseEdit)) = storedCount flash := by
  induction slots generalizing flash with
  | nil => rfl
  | cons slot slots ih => exact (ih _).trans (storedCount_eraseEdit flash slot)

theorem storedSettings_erased (slots : List Nat) :
    storedSettings (flash.edited (slots.map eraseEdit)) = storedSettings flash := by
  induction slots generalizing flash with
  | nil => rfl
  | cons slot slots ih => exact (ih _).trans (storedSettings_eraseEdit flash slot)

theorem storedCow?_erased {slots : List Nat} {i : Nat} (h : i ∉ slots) :
    storedCow? (flash.edited (slots.map eraseEdit)) i = storedCow? flash i := by
  induction slots generalizing flash with
  | nil => rfl
  | cons slot slots ih =>
    rw [List.mem_cons, not_or] at h
    apply (ih (flash.edit (eraseEdit slot)) h.2).trans
    rw [storedCow?_eraseEdit, if_neg h.1]

/-- Under the key of an erased slot there is nothing at all. -/
theorem get?_erased {slots : List Nat} {i : Nat}
    (h : i ∈ slots ∨ flash.get? (Flash.path space (slotKey i)) = none) :
    (flash.edited (slots.map eraseEdit)).get? (Flash.path space (slotKey i)) = none := by
  induction slots generalizing flash with
  | nil => exact h.resolve_left List.not_mem_nil
  | cons slot slots ih =>
    apply ih (flash.edit (eraseEdit slot))
    rw [eraseEdit, Flash.get?_edit]
    split_ifs with heq
    · exact .inr rfl
    · rwa [List.mem_cons, or_iff_right (mt slotKey_inj.2 heq)] at h

theorem storedCow?_of_get?_eq_none {i : Nat} (h : flash.get? (Flash.path space (slotKey i)) = none) :
    storedCow? flash i = none := by
  rw [storedCow?, Flash.read, h]
  rfl

theorem storedCow?_erased_of_mem {slots : List Nat} {i : Nat} (h : i ∈ slots) :
    storedCow? (flash.edited (slots.map eraseEdit)) i = none :=
  storedCow?_of_get?_eq_none _ (get?_erased flash (.inl h))

theorem storedCount_truncation {count : Nat} (h : count < 65536) (former : Nat) :
    storedCount (flash.edited (truncation count former)) = .ok count :=
  (storedCount_erased _ _).trans (storedCount_countEdit flash h)

theorem storedSettings_truncation (count former : Nat) :
    storedSettings (flash.edited (truncation count former)) = storedSettings flash :=
  (storedSettings_erased _ _).trans (storedSettings_countEdit flash count)

/-- Only slots from the new count on are erased. -/
theorem storedCow?_truncation {count i : Nat} (h : i < count) (former : Nat) :
    storedCow? (flash.edited (truncation count former)) i = storedCow? flash i := by
  refine (storedCow?_erased _ ?_).trans (storedCow?_countEdit flash count i)
  intro hmem
  rw [List.mem_range'_1] at hmem
  omega

/-- Beyond the new count, the slots up to the former one are empty and the others untouched. -/
theorem storedCow?_truncation_of_le {count i : Nat} (h : count ≤ i) (former : Nat) :
    storedCow? (flash.edited (truncation count former)) i =
      if i < former then none else storedCow? flash i := by
  have hmem : i ∈ List.range' count (former - count) ↔ i < former := by
    rw [List.mem_range'_1]
    omega
  split_ifs with herased
  · exact storedCow?_erased_of_mem _ (hmem.2 herased)
  · exact (storedCow?_erased _ (mt hmem.1 herased)).trans (storedCow?_countEdit flash count i)

theorem storedCount_savings (index : Nat) (cows : List Cow) :
    storedCount (flash.edited (savings index cows)) = storedCount flash := by
  induction cows generalizing flash index with
  | nil => rfl
  | cons cow cows ih => exact (ih _ _).trans (storedCount_saveEdit flash cow index)

/-- Erased are the slots from the new count up to the former one. -/
theorem get?_truncation {count former i : Nat} (hle : count ≤ i) (hlt : i < former) :
    (flash.edited (truncation count former)).get? (Flash.path space (slotKey i)) = none := by
  refine get?_erased _ (.inl ?_)
  rw [List.mem_range'_1]
  omega

theorem storedSettings_savings (index : Nat) (cows : List Cow) :
    storedSettings (flash.edited (savings index cows)) = storedSettings flash := by
  induction cows generalizing flash index with
  | nil => rfl
  | cons cow cows ih => exact (ih _ _).trans (storedSettings_saveEdit flash cow index)

theorem storedCow?_savings_of_lt {cows : List Cow} (hfits : ∀ cow ∈ cows, cow.Fits)
    {index i : Nat} (h : i < index) :
    storedCow? (flash.edited (savings index cows)) i = storedCow? flash i := by
  induction cows generalizing flash index with
  | nil => rfl
  | cons cow cows ih =>
    obtain ⟨hcow, hcows⟩ := List.forall_mem_cons.1 hfits
    apply (ih (flash.edit (saveEdit cow index)) hcows (by omega)).trans
    rw [storedCow?_saveEdit flash hcow, if_neg (by omega)]

theorem storedCow?_savings_of_le {cows : List Cow} (hfits : ∀ cow ∈ cows, cow.Fits)
    {index i : Nat} (h : index + cows.length ≤ i) :
    storedCow? (flash.edited (savings index cows)) i = storedCow? flash i := by
  induction cows generalizing flash index with
  | nil => rfl
  | cons cow cows ih =>
    obtain ⟨hcow, hcows⟩ := List.forall_mem_cons.1 hfits
    rw [List.length_cons] at h
    apply (ih (flash.edit (saveEdit cow index)) hcows (by omega)).trans
    rw [storedCow?_saveEdit flash hcow, if_neg (by omega)]

theorem storedCow?_savings {cows : List Cow} (hfits : ∀ cow ∈ cows, cow.Fits) {index i : Nat}
    (h : i < cows.length) :
    storedCow? (flash.edited (savings index cows)) (index + i) = cows[i]? := by
  induction cows generalizing flash index i with
  | nil => simp at h
  | cons cow cows ih =>
    obtain ⟨hcow, hcows⟩ := List.forall_mem_cons.1 hfits
    cases i with
    | zero =>
      refine (storedCow?_savings_of_lt _ hcows (Nat.lt_succ_self index)).trans ?_
      rw [storedCow?_saveEdit flash hcow, if_pos rfl, List.getElem?_cons_zero]
    | succ i =>
      have hlt : i < cows.length := by simpa using h
      have hplace : index + (i + 1) = index + 1 + i := by omega
      rw [hplace, List.getElem?_cons_succ]
      exact ih _ hcows hlt

/-! ## Programs that carry scripts out -/

section Programs

variable {φ : Type} [FaultSource φ] (device : Device φ)

theorem save_carries {cow : Cow} (h : cow.Fits) (index : Nat) :
    (save cow index).Carries [saveEdit cow index] device :=
  make_carries (saveEdit_fits h index) device

theorem saveSettings_carries {settings : Settings} (h : settings.Fits) :
    (saveSettings settings).Carries [settingsEdit settings] device :=
  make_carries (settingsEdit_fits h) device

theorem eraseSlots_carries (index slots : Nat) :
    (eraseSlots index slots).Carries ((List.range' index slots).map eraseEdit) device := by
  induction slots generalizing index device with
  | zero => exact carries_pure device
  | succ slots ih =>
    exact (make_carries (eraseEdit_fits index) device).bind fun faults _ => ih _ (index + 1)

theorem writeCount_eq {count : Nat} (h : count < 65536) :
    (writeCount count : Storage φ Unit) = make (countEdit count) := by
  rw [writeCount, if_neg (Nat.not_le.2 h)]
  rfl

theorem truncate_carries {count : Nat} (h : count < 65536) (former : Nat) :
    (truncate count former).Carries (truncation count former) device := by
  rw [truncate, writeCount_eq h]
  exact (make_carries (countEdit_fits count) device).bind fun faults _ => eraseSlots_carries _ _ _

theorem saveFrom_carries {cows : List Cow} (hfits : ∀ cow ∈ cows, cow.Fits) (index : Nat) :
    (saveFrom index cows).Carries (savings index cows) device := by
  induction cows generalizing index device with
  | nil => exact carries_pure device
  | cons cow cows ih =>
    obtain ⟨hcow, hcows⟩ := List.forall_mem_cons.1 hfits
    exact (save_carries device hcow index).bind fun faults _ => ih _ hcows (index + 1)

theorem count_on : ∃ answer faults, count.on device = (answer, { device with faults }) := by
  obtain ⟨answer, faults, hread⟩ := read_on space countKey 2 device
  rw [count, on_bind, on_attempt, hread]
  cases answer with
  | ok blob => exact ⟨_, faults, rfl⟩
  | error error => cases error <;> exact ⟨_, faults, rfl⟩

/-- The size is set whether or not the former one could be read. -/
theorem resize_on (count : Nat) : ∃ former faults,
    (resize count).on device = (truncate count former).on { device with faults } := by
  obtain ⟨answer, faults, hcount⟩ := count_on device
  refine ⟨answer.toOption.getD 0, faults, ?_⟩
  rw [resize, on_bind, on_attempt, hcount]

theorem resize_carries {count : Nat} (h : count < 65536) :
    ∃ former, (resize count).Carries (truncation count former) device := by
  obtain ⟨former, faults, hresize⟩ := resize_on device count
  refine ⟨former, ?_⟩
  rw [Carries, hresize]
  exact truncate_carries { device with faults } h former

theorem then_resize_carries {op : Storage φ Unit} {edits : List Edit}
    (h : op.Carries edits device) {count : Nat} (hlt : count < 65536) :
    ∃ former, (op >>= fun _ => resize count).Carries (edits ++ truncation count former) device := by
  obtain ⟨former, hresize⟩ := exists_of_done device fun after => resize_carries after hlt
  exact ⟨former, h.bind hresize⟩

end Programs

end Fodder.HerdStore
