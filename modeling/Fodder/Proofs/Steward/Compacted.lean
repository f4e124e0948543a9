import Fodder.Proofs.Steward.Boot

/-!
# Loading, interrupted and complete

A compaction copies records down to lower slots before it sets the count, so wherever it is cut,
every record that was not yet copied is still in its old slot, and some are found twice. The first
copies decide what is taken over: the herd is the one that the original contents would have given.
-/
namespace Fodder

namespace HerdStore

open Storage

/-- What is stored when the power is lost after the first `n` writes and erases of loading. -/
def interrupted (flash : Flash) (n : Nat) : Flash :=
  (Device.sound flash).cut (loadAll.on (Device.sound flash)).2 n

/-- The store has these cows without gaps, and behind them nothing in the slots of the former count. -/
structure Compacted (flash : Flash) (former : Nat) (cows : List Cow) : Prop where
  count : storedCount flash = .ok cows.length
  slots : ∀ i < cows.length, storedCow? flash i = cows[i]?
  absent : ∀ i, cows.length ≤ i → i < former → flash.get? (Flash.path space (slotKey i)) = none

variable {flash : Flash} {slots : Nat}

theorem interrupted_eq (h : storedCount flash = .ok slots) (n : Nat) :
    interrupted flash n = flash.edited ((compaction flash slots).take n) := by
  have hcount : storedCount (Device.sound flash).flash = .ok slots := h
  rw [interrupted, loadAll_on_sound hcount, Device.cut_after]
  rfl

/-- A first part of a compaction saves some of the records, or it saves all of them and truncates. -/
theorem take_compaction_cases (flash : Flash) (slots n : Nat) :
    (∃ saved ≤ (storedCows flash 0 slots).length,
      (compaction flash slots).take n = savings 0 ((storedCows flash 0 slots).take saved)) ∨
    ∃ former, (compaction flash slots).take n =
      savings 0 (storedCows flash 0 slots) ++ truncation (storedCows flash 0 slots).length former := by
  unfold compaction
  generalize storedCows flash 0 slots = cows
  dsimp only
  split_ifs with hall
  · left
    exact ⟨0, Nat.zero_le _, List.take_nil⟩
  · rcases Nat.lt_or_ge cows.length n with hlt | hle
    · right
      obtain ⟨k, rfl⟩ := Nat.exists_eq_add_of_lt hlt
      refine ⟨cows.length + min k (slots - cows.length), ?_⟩
      rw [List.take_append, length_savings, List.take_of_length_le (by rw [length_savings]; omega),
        Nat.add_assoc, Nat.add_sub_cancel_left, take_truncation]
    · left
      refine ⟨n, hle, ?_⟩
      rw [List.take_append_of_le_length (by rwa [length_savings]), take_savings]

theorem storedSettings_interrupted (h : storedCount flash = .ok slots) (n : Nat) :
    storedSettings (interrupted flash n) = storedSettings flash := by
  rw [interrupted_eq h]
  rcases take_compaction_cases flash slots n with ⟨saved, -, hscript⟩ | ⟨former, hscript⟩
  · rw [hscript, storedSettings_savings]
  · rw [hscript, Flash.edited_append, storedSettings_truncation, storedSettings_savings]

/-! ## What is found after a cut -/

/-- While cows move up, the slots behind those that were saved are as they were. -/
theorem storedCows_savings (flash : Flash) {cows : List Cow} (hfits : ∀ cow ∈ cows, cow.Fits)
    (more : Nat) : storedCows (flash.edited (savings 0 cows)) 0 (cows.length + more) =
      cows ++ storedCows flash cows.length more := by
  have hsaved : storedCows (flash.edited (savings 0 cows)) 0 cows.length = cows := by
    rw [storedCows_eq_iff]
    exact fun i hi => storedCow?_savings flash hfits hi
  have hlater : storedCows (flash.edited (savings 0 cows)) cows.length more =
      storedCows flash cows.length more := by
    refine List.filterMap_congr fun i hi => storedCow?_savings_of_le flash hfits ?_
    rw [List.mem_range'_1] at hi
    omega
  rw [storedCows_add, hsaved, Nat.zero_add, hlater]

/-- The slots from a place on hold all records but the first ones, at most as many as there are slots
before the place. -/
theorem exists_storedCows_eq_drop (flash : Flash) (place more : Nat) : ∃ back ≤ place,
    storedCows flash place more = (storedCows flash 0 (place + more)).drop back := by
  refine ⟨_, length_storedCows_le flash 0 place, ?_⟩
  rw [storedCows_add, List.drop_left, Nat.zero_add]

/-- Wherever loading is cut, a first part of the records is found and, from a place in this part on,
all others. -/
theorem exists_storedCows_interrupted (h : storedCount flash = .ok slots) (n : Nat) :
    ∃ left upto back, storedCount (interrupted flash n) = .ok left ∧ back ≤ upto ∧
      storedCows (interrupted flash n) 0 left =
        (storedCows flash 0 slots).take upto ++ (storedCows flash 0 slots).drop back := by
  have hlength := length_storedCows_le flash 0 slots
  have hfits : ∀ cow ∈ storedCows flash 0 slots, cow.Fits := fun cow => fits_of_mem_storedCows
  rw [interrupted_eq h]
  rcases take_compaction_cases flash slots n with ⟨saved, hle, hscript⟩ | ⟨former, hscript⟩
  · obtain ⟨more, rfl⟩ := Nat.exists_eq_add_of_le (hle.trans hlength)
    obtain ⟨back, hback, hrest⟩ := exists_storedCows_eq_drop flash saved more
    refine ⟨saved + more, saved, back, ?_, hback, ?_⟩
    · rw [hscript, storedCount_savings, h]
    · have hsaved : ∀ cow ∈ (storedCows flash 0 (saved + more)).take saved, cow.Fits :=
        fun cow hcow => hfits cow (List.mem_of_mem_take hcow)
      have hkept := storedCows_savings flash hsaved more
      rw [List.length_take_of_le hle] at hkept
      rw [hscript, hkept, hrest]
  · have hholds := holds_savings flash hfits (hlength.trans_lt (storedCount_lt h)) former
    refine ⟨_, _, _, by rw [hscript, hholds.count], le_refl (storedCows flash 0 slots).length, ?_⟩
    rw [hscript, hholds.storedCows_eq, List.take_append_drop]

/-! ## After a complete load -/

theorem compacted_loadAll (h : storedCount flash = .ok slots) :
    Compacted (loadAll.on (Device.sound flash)).2.flash slots (storedCows flash 0 slots) := by
  have hcount : storedCount (Device.sound flash).flash = .ok slots := h
  have hholds := holds_compaction h
  rw [loadAll_on_sound hcount]
  refine ⟨hholds.count, fun i hi => hholds.slots i hi List.not_mem_nil, fun i hle hlt => ?_⟩
  have hscript : compaction flash slots =
      savings 0 (storedCows flash 0 slots) ++ truncation (storedCows flash 0 slots).length slots :=
    if_neg (by omega)
  change (flash.edited (compaction flash slots)).get? _ = none
  rw [hscript, Flash.edited_append]
  exact get?_truncation _ hle hlt

/-- Loading finds nothing to do in a store without gaps. -/
theorem Compacted.loadAll_eq {device : Device Unit} {cows : List Cow}
    (h : Compacted device.flash slots cows) : loadAll.on device = (.ok cows, device) := by
  have hholds : Holds device.flash cows [] := ⟨h.count, fun i hi _ => h.slots i hi⟩
  have hnone : compaction device.flash cows.length = [] := by
    rw [compaction, hholds.storedCows_eq]
    exact if_pos rfl
  rw [loadAll_on_sound h.count, hholds.storedCows_eq, hnone]
  rfl

end HerdStore

namespace Steward

open HerdStore Storage

/-- A start after an interrupted load finds the herd, in its order, and the schedule that a start from
the original contents finds. A complete load leaves its records without gaps, and the next one finds
the same and writes nothing. -/
theorem restores_interrupted {flash : Flash} {slots : Nat} (h : storedCount flash = .ok slots) :
    (∀ n, Restores (interrupted flash n) (boot (Device.sound flash)).engine) ∧
      ∃ cows, (loadAll.on (Device.sound flash)).1 = .ok cows ∧
        Compacted (loadAll.on (Device.sound flash)).2.flash slots cows ∧
        loadAll.on (loadAll.on (Device.sound flash)).2 =
          (.ok cows, (loadAll.on (Device.sound flash)).2) := by
  have hcompacted := compacted_loadAll h
  refine ⟨fun n => ?_, storedCows flash 0 slots, ?_, hcompacted, hcompacted.loadAll_eq⟩
  · obtain ⟨left, upto, back, hcount, hback, hfound⟩ := exists_storedCows_interrupted h n
    constructor
    · have hrecords : found (interrupted flash n) =
          (found flash).take upto ++ (found flash).drop back := by
        simp only [found, hcount, h, hfound]
      simp only [boot_herd, Device.flash_sound, hrecords]
      exact Herd.ofRecords_take_append_drop _ hback
    · simp only [boot_settings, Device.flash_sound, storedSettings_interrupted h]
  · have hcount : storedCount (Device.sound flash).flash = .ok slots := h
    rw [loadAll_on_sound hcount]
    rfl

/-- Five slots: the first is missing, the third cannot be decoded and the fourth repeats the second. -/
def gappedHerd : Flash :=
  let cow (name : String) (collar : UInt16) : Cow :=
    ⟨name, "276000123456", collar, ⟨1082130432⟩, 1700000000, []⟩
  Flash.edited {} [countEdit 5, saveEdit (cow "Anna" 1) 1, ⟨space, slotKey 2, .write [7]⟩,
    saveEdit (cow "Anna" 1) 3, saveEdit (cow "Berta" 2) 4]

/-- After two of its three saves, the compaction has left Anna in three slots. -/
theorem restores_interrupted_gappedHerd :
    storedCount gappedHerd = .ok 5 ∧
      (boot (Device.sound gappedHerd)).engine.herd.names = ["Anna", "Berta"] ∧
      (storedCows (interrupted gappedHerd 2) 0 5).map Cow.name = ["Anna", "Anna", "Anna", "Berta"] ∧
      Restores (interrupted gappedHerd 2) (boot (Device.sound gappedHerd)).engine ∧
      ∃ cows, (loadAll.on (Device.sound gappedHerd)).1 = .ok cows ∧
        Compacted (loadAll.on (Device.sound gappedHerd)).2.flash 5 cows ∧
        loadAll.on (loadAll.on (Device.sound gappedHerd)).2 =
          (.ok cows, (loadAll.on (Device.sound gappedHerd)).2) := by
  have hcount : storedCount gappedHerd = .ok 5 := by decide +kernel
  have hrestores := restores_interrupted hcount
  exact ⟨hcount, by decide +kernel, by decide +kernel, hrestores.1 2, hrestores.2⟩

end Steward

end Fodder
