import Fodder.Proofs.Allocation
import Fodder.Proofs.Steward.Boot
import Fodder.Proofs.Steward.Operation

/-!
# Memory backed by the store

The invariant between an engine and the contents it writes to: the count is the size of the herd,
every slot that is not pending holds the cow at its place, and a start finds the schedule in force.
It holds after any start, and while only writes fail every operation keeps it.
-/
namespace Fodder.Steward

open HerdStore Storage

/-- `blank` says whether the count may be unreadable as long as there is no cow. -/
structure Backed (blank : Prop) (engine : Engine) (flash : Flash) : Prop where
  sound : engine.herd.Sound
  fits : ∀ cow ∈ engine.herd.cows, cow.Fits
  stored : Holds flash engine.herd.cows engine.pending ∨
    blank ∧ engine.herd.cows = [] ∧ ∃ error, storedCount flash = .error error
  settings : startSettings (storedSettings flash) = engine.settings

variable {blank : Prop} {engine : Engine} {flash : Flash}

/-- Where there is a cow, the count can be read. -/
theorem Backed.holds (h : Backed blank engine flash) {index : Nat} (hcow : index < engine.herd.size) :
    Holds flash engine.herd.cows engine.pending := by
  rcases h.stored with hholds | ⟨-, hempty, -⟩
  · exact hholds
  · rw [Herd.size, hempty] at hcow
    exact absurd hcow (Nat.not_lt_zero index)

theorem Backed.slots (h : Backed blank engine flash) (i : Nat) (hi : i < engine.herd.cows.length)
    (hpending : i ∉ engine.pending) : storedCow? flash i = engine.herd.cows[i]? :=
  (h.holds hi).slots i hi hpending

/-! ## Starting -/

theorem backed_boot {device : Device Unit} (h : blank ∨ ∃ slots, storedCount device.flash = .ok slots) :
    Backed blank (boot device).engine (boot device).device.flash where
  sound := by
    rw [boot_herd]
    exact Herd.sound_ofRecords _
  fits cow hcow := by
    rw [boot_herd] at hcow
    exact fits_of_mem_found ((Herd.cows_ofRecords_sublist _).subset hcow)
  stored := by
    cases hcount : storedCount device.flash with
    | ok slots =>
      left
      have hholds := holds_boot hcount
      rw [boot_engine]
      dsimp only
      split_ifs with hall
      · rw [Herd.leftOut_eq_zero_iff] at hall
        rw [hall]
        rwa [Herd.size, hall, List.take_length] at hholds
      · refine ⟨?_, ?_⟩
        · rw [hholds.count, List.length_take_of_le (size_ofRecords_le _)]
          rfl
        · intro i hi hpending
          exact absurd (List.mem_range.2 hi) hpending
    | error error =>
      right
      obtain ⟨hfound, hdevice⟩ := boot_of_error hcount
      rw [boot_herd, hdevice, hfound]
      rcases h with hblank | ⟨slots, hslots⟩
      · exact ⟨hblank, rfl, error, hcount⟩
      · rw [hcount] at hslots
        cases hslots
  settings := by rw [storedSettings_boot, boot_settings]

/-- With nothing pending, loading finds the cows of the herd. -/
theorem Backed.found_eq (h : Backed blank engine flash) (hpending : engine.pending = []) :
    found flash = engine.herd.cows := by
  rcases h.stored with hholds | ⟨-, hempty, error, herror⟩
  · rw [hpending] at hholds
    exact found_of_holds hholds
  · rw [hempty]
    simp only [found, herror]

/-- A start finds again what is stored without anything pending. -/
theorem Backed.restores (h : Backed blank engine flash) (hpending : engine.pending = []) :
    Restores flash engine := by
  rw [Restores, boot_herd, boot_settings, Device.flash_sound, h.found_eq hpending]
  exact ⟨Herd.ofRecords_of_sound h.sound, h.settings⟩

/-! ## Allocating -/

theorem Backed.recordFeed (h : Backed blank engine flash) {slot : Nat} {cow : Cow}
    (hcow : engine.herd.cows[slot]? = some cow) (feed : Feed) :
    Backed blank (engine.recordFeed slot cow.name feed) flash where
  sound := h.sound.recordFeed slot feed
  fits := Herd.fits_recordFeed h.fits slot feed
  stored := by
    obtain ⟨hlt, -⟩ := List.getElem?_eq_some_iff.1 hcow
    have hholds := h.holds hlt
    left
    constructor
    · rw [hholds.count]
      exact congrArg Except.ok (Herd.size_recordFeed engine.herd slot feed).symm
    · intro i hi hpending
      have hlength : i < engine.herd.size := by
        rw [← Herd.size_recordFeed engine.herd slot feed]
        exact hi
      simp only [Engine.recordFeed, Engine.mem_insertSlot, not_or] at hpending
      rw [hholds.slots i hlength hpending.2]
      simp only [Engine.recordFeed, Herd.getElem?_recordFeed, if_neg (Ne.symm hpending.1),
        Option.map_id']
  settings := h.settings

theorem Backed.allocate (h : Backed blank engine flash) (now : Nat) (tag : UInt16)
    (station : UInt8) : Backed blank (engine.allocate now tag station).2 flash := by
  rcases engine.allocate_cases now tag station with hsame | ⟨slot, cow, minute, hcow, -, hnoted⟩
  · rw [hsame]
    exact h
  · rw [hnoted]
    exact h.recordFeed hcow ⟨station, minute⟩

/-! ## Flushing -/

section Flushing

variable {φ : Type} [FaultSource φ] {herd : Herd}

/-- A slot of a flush has no cow in it, or its cow is stored, or nothing is and the slot stays
pending. -/
theorem flushSlots_cons_cases (hfits : ∀ cow ∈ herd.cows, cow.Fits) (slot : Nat) (slots : List Nat)
    (device : Device φ) :
    (herd.at? slot = none ∧ flushSlots herd (slot :: slots) device = flushSlots herd slots device) ∨
    ∃ cow, herd.at? slot = some cow ∧ cow.Fits ∧
      ((∃ faults, flushSlots herd (slot :: slots) device =
          let rest := flushSlots herd slots (device.after [saveEdit cow slot] faults)
          { rest with written := rest.written + 1 }) ∨
        ∃ after, after.flash = device.flash ∧ flushSlots herd (slot :: slots) device =
          let rest := flushSlots herd slots after
          { rest with pending := slot :: rest.pending }) := by
  rw [flushSlots]
  cases hat : herd.at? slot with
  | none => exact .inl ⟨rfl, rfl⟩
  | some cow =>
    have hcow := hfits cow (List.mem_of_getElem? hat)
    refine .inr ⟨cow, rfl, hcow, ?_⟩
    dsimp only
    rcases (save_carries device hcow slot).single with
      ⟨faults, hsaved⟩ | ⟨error, after, hfailed, hflash⟩
    · exact .inl ⟨faults, by rw [hsaved]⟩
    · exact .inr ⟨after, hflash, by rw [hfailed]⟩

/-- A slot leaves the pending ones only when its cow is stored or when there is none. -/
theorem holds_flushSlots (hfits : ∀ cow ∈ herd.cows, cow.Fits) {slots others : List Nat}
    {device : Device φ} (h : Holds device.flash herd.cows (slots ++ others)) :
    Holds (flushSlots herd slots device).device.flash herd.cows
      ((flushSlots herd slots device).pending ++ others) := by
  induction slots generalizing others device with
  | nil => exact h
  | cons slot slots ih =>
    rcases flushSlots_cons_cases hfits slot slots device with
      ⟨hat, heq⟩ | ⟨cow, hat, hcow, ⟨faults, heq⟩ | ⟨after, hflash, heq⟩⟩
    · rw [heq]
      refine ih ⟨h.count, ?_⟩
      intro i hi hpending
      apply h.slots i hi
      have hne : i ≠ slot := by
        rintro rfl
        rw [Herd.at?, List.getElem?_eq_getElem hi] at hat
        cases hat
      simpa [hne] using hpending
    · obtain ⟨hlt, hplace⟩ := List.getElem?_eq_some_iff.1 hat
      have hstored := h.save hcow slot
      rw [← hplace, List.set_getElem_self] at hstored
      rw [heq, ← hplace]
      refine ih (hstored.mono ?_)
      intro i hi
      obtain ⟨hmem, hne⟩ := List.mem_filter.1 hi
      have hne : i ≠ slot := by simpa using hne
      simpa [hne] using hmem
    · have hkept : Holds after.flash herd.cows (slots ++ slot :: others) := by
        rw [hflash]
        apply h.mono
        intro i hi
        simpa [or_left_comm] using hi
      rw [heq]
      apply (ih hkept).mono
      intro i hi
      simpa [or_left_comm] using hi

theorem storedSettings_flushSlots (hfits : ∀ cow ∈ herd.cows, cow.Fits) (slots : List Nat)
    (device : Device φ) :
    storedSettings (flushSlots herd slots device).device.flash = storedSettings device.flash := by
  induction slots generalizing device with
  | nil => rfl
  | cons slot slots ih =>
    rcases flushSlots_cons_cases hfits slot slots device with
      ⟨-, heq⟩ | ⟨cow, -, -, ⟨faults, heq⟩ | ⟨after, hflash, heq⟩⟩
    · rw [heq]
      exact ih device
    · rw [heq]
      exact (ih _).trans (storedSettings_saveEdit device.flash cow slot)
    · rw [heq, ← hflash]
      exact ih after

theorem flushSlots_of_empty (hempty : herd.cows = []) (slots : List Nat) (device : Device φ) :
    flushSlots herd slots device = ⟨0, [], device⟩ := by
  induction slots with
  | nil => rfl
  | cons slot slots ih =>
    have hat : herd.at? slot = none := by
      rw [Herd.at?, hempty]
      rfl
    rw [flushSlots, hat]
    exact ih

theorem Backed.flush {s : Steward φ} (h : Backed blank s.engine s.device.flash) :
    Backed blank s.flush.2.engine s.flush.2.device.flash where
  sound := h.sound
  fits := h.fits
  stored := by
    rcases h.stored with hholds | ⟨hblank, hempty, herror⟩
    · left
      have hflushed : Holds _ _ (_ ++ []) := holds_flushSlots h.fits (by rwa [List.append_nil])
      rwa [List.append_nil] at hflushed
    · right
      refine ⟨hblank, hempty, ?_⟩
      simp only [Steward.flush, flushSlots_of_empty hempty]
      exact herror
  settings := (congrArg startSettings (storedSettings_flushSlots h.fits _ _)).trans h.settings

/-- Where nothing fails, no slot stays pending. -/
theorem pending_flushSlots_sound (hfits : ∀ cow ∈ herd.cows, cow.Fits) (slots : List Nat)
    (device : Device Unit) : (flushSlots herd slots device).pending = [] := by
  induction slots generalizing device with
  | nil => rfl
  | cons slot slots ih =>
    unfold flushSlots
    cases hat : herd.at? slot with
    | none => exact ih device
    | some cow =>
      have hcow := hfits cow (List.mem_of_getElem? hat)
      dsimp only
      rw [(save_carries device hcow slot).on_sound]
      exact ih _

end Flushing

/-! ## Changing -/

theorem truncation_eq_append {count former : Nat} {made rest : List Edit}
    (h : truncation count former = made ++ rest) :
    made = [] ∨ (∃ former', made = truncation count former') ∧ ∀ edit ∈ rest, edit.call = .erase := by
  cases made with
  | nil => exact .inl rfl
  | cons edit made =>
    right
    constructor
    · refine ⟨count + min made.length (former - count), ?_⟩
      rw [← take_truncation, h]
      simp
    · intro other hother
      rw [truncation, List.cons_append, List.cons.injEq] at h
      have hmem : other ∈ (List.range' count (former - count)).map eraseEdit := by
        rw [h.2]
        exact List.mem_append_right made hother
      obtain ⟨slot, -, rfl⟩ := List.mem_map.1 hmem
      rfl

theorem startSettings_ok {settings : Settings} (h : settings.Valid) :
    startSettings (.ok settings) = settings := by
  rw [startSettings, (Settings.flaw?_eq_none_iff settings).2 h]
  rfl

theorem Planned.storedSettings_done {plan : Plan} (hplan : Planned engine plan)
    (h : Backed blank engine flash) :
    startSettings (storedSettings (flash.edited plan.script)) = plan.done.settings := by
  cases hplan with
  | @edit index cow recent here fits sound =>
    exact (congrArg startSettings (storedSettings_saveEdit flash cow index)).trans h.settings
  | @create cow former recent fits sound =>
    refine (congrArg startSettings ?_).trans h.settings
    exact (storedSettings_truncation _ _ former).trans (storedSettings_saveEdit flash cow _)
  | @deleteLast last former recent here =>
    exact (congrArg startSettings (storedSettings_truncation flash _ former)).trans h.settings
  | @delete index last former recent here moved =>
    refine (congrArg startSettings ?_).trans h.settings
    exact (storedSettings_truncation _ _ former).trans (storedSettings_saveEdit flash last index)
  | schedule valid fits =>
    exact (congrArg startSettings (storedSettings_settingsEdit flash fits)).trans
      (startSettings_ok valid)

/-- Carried out, a plan leaves its engine backed. -/
theorem Planned.backed_done {plan : Plan} (hplan : Planned engine plan)
    (h : Backed blank engine flash) : Backed blank plan.done (flash.edited plan.script) := by
  refine ⟨hplan.herd_done h.sound, hplan.fits_done h.fits, ?_, hplan.storedSettings_done h⟩
  cases hplan with
  | @edit index cow recent here fits sound =>
    exact .inl (((h.holds here).save fits index).mono (List.filter_subset_self _))
  | @create cow former recent fits sound =>
    have hlt : engine.herd.cows.length + 1 < 65536 := by
      have hsize := sound.size
      simp only [Herd.size, Herd.capacity, List.length_append, List.length_singleton] at hsize
      omega
    exact .inl (holds_extend h.slots fits hlt former)
  | @deleteLast last former recent here =>
    obtain ⟨hlt, hplace⟩ := List.getElem?_eq_some_iff.1 here
    have hholds := (h.holds hlt).truncate (Nat.sub_le engine.herd.size 1) former
    have hcows := Herd.cows_fillFromEnd here (engine.herd.size - 1)
    rw [← hplace, List.set_getElem_self] at hcows
    left
    dsimp only
    rw [hcows]
    exact hholds
  | @delete index last former recent here moved =>
    obtain ⟨hlt, -⟩ := List.getElem?_eq_some_iff.1 moved
    have hsaved := ((h.holds hlt).save (h.fits last (List.mem_of_getElem? moved)) index).mono
      (List.filter_subset_self _)
    have hsize : engine.herd.size - 1 ≤ (engine.herd.cows.set index last).length := by
      rw [List.length_set]
      exact hlt.le
    left
    dsimp only
    rw [Herd.cows_fillFromEnd moved index]
    exact hsaved.truncate hsize former
  | @schedule settings valid fits =>
    rcases h.stored with hholds | ⟨hblank, hempty, error, herror⟩
    · exact .inl (hholds.schedule settings)
    · exact .inr ⟨hblank, hempty, error, (storedCount_settingsEdit flash settings).trans herror⟩

theorem Backed.clearing (h : Backed blank engine flash) (former : Nat) :
    Backed blank (clearing engine former).done (flash.edited (clearing engine former).script) where
  sound := Herd.sound_empty
  fits cow hcow := absurd hcow List.not_mem_nil
  stored := .inl
    { count := storedCount_truncation flash (by decide) former
      slots := fun i hi => absurd hi (Nat.not_lt_zero i) }
  settings := (congrArg startSettings (storedSettings_truncation flash 0 former)).trans h.settings

theorem Backed.markPending (h : Backed blank engine flash) (slot : Nat) :
    Backed blank (engine.markPending slot) flash where
  sound := h.sound
  fits := h.fits
  stored := h.stored.imp_left fun hholds =>
    hholds.mono fun _ hi => Engine.mem_insertSlot.2 (.inr hi)
  settings := h.settings

theorem Backed.save_unseen (h : Backed blank engine flash) {cow : Cow} (hfits : cow.Fits)
    {index : Nat} (hunseen : index ∈ engine.pending ∨ engine.herd.size ≤ index) :
    Backed blank engine (flash.edit (saveEdit cow index)) where
  sound := h.sound
  fits := h.fits
  stored := by
    rcases h.stored with hholds | ⟨hblank, hempty, error, herror⟩
    · exact .inl (hholds.save_unseen hfits hunseen)
    · exact .inr ⟨hblank, hempty, error, (storedCount_saveEdit flash cow index).trans herror⟩
  settings := (congrArg startSettings (storedSettings_saveEdit flash cow index)).trans h.settings

theorem truncation_fault {count former : Nat} {made rest : List Edit} {failed : Edit}
    (h : truncation count former = made ++ failed :: rest) (hwrite : failed.call = .write) :
    made = [] := by
  rcases truncation_eq_append h with hmade | ⟨-, herase⟩
  · exact hmade
  · have hfailed := herase failed List.mem_cons_self
    rw [hwrite] at hfailed
    cases hfailed

/-- A write that fails leaves a plan before its first edit, or between a saved cow and the count. -/
theorem Planned.backed_undone {plan : Plan} (hplan : Planned engine plan)
    (h : Backed blank engine flash) {made rest : List Edit} {failed : Edit}
    (hscript : plan.script = made ++ failed :: rest) (hwrite : failed.call = .write) :
    Backed blank plan.undone (flash.edited made) := by
  cases hplan with
  | edit recent here fits sound =>
    rw [eq_nil_of_singleton_eq hscript]
    exact h
  | create recent fits sound =>
    cases made with
    | nil => exact h
    | cons saved made =>
      obtain ⟨rfl, hrest⟩ := List.cons.inj hscript
      rw [truncation_fault hrest hwrite]
      exact h.save_unseen fits (.inr le_rfl)
  | deleteLast recent here =>
    rw [truncation_fault hscript hwrite]
    exact h
  | @delete index last former recent here moved =>
    have hfits := h.fits last (List.mem_of_getElem? moved)
    cases made with
    | nil => exact h.markPending index
    | cons saved made =>
      obtain ⟨rfl, hrest⟩ := List.cons.inj hscript
      rw [truncation_fault hrest hwrite]
      exact (h.markPending index).save_unseen hfits (.inl (Engine.mem_insertSlot.2 (.inl rfl)))
  | schedule valid fits =>
    rw [eq_nil_of_singleton_eq hscript]
    exact h

end Fodder.Steward
