import Fodder.Proofs.Steward.Atomic
import Fodder.Proofs.Steward.Memory

/-!
# What all stored cows have in common

Slots only ever receive cows from memory. So on a device without faults a property of single cows
that the herd has before and after an operation is never lost in the store, and a start finds cows
that have it.
-/
namespace Fodder

namespace HerdStore

open Storage

/-- Every cow that can be read from a slot has the property, also behind the count. -/
def AllStored (P : Cow → Prop) (flash : Flash) : Prop :=
  ∀ index cow, storedCow? flash index = some cow → P cow

/-- Edits that put no other cows into slots than those with a property. -/
inductive Harmless (P : Cow → Prop) : Edit → Prop
  | save {cow : Cow} (index : Nat) (fits : cow.Fits) (holds : P cow) : Harmless P (saveEdit cow index)
  | count (count : Nat) : Harmless P (countEdit count)
  | erase (index : Nat) : Harmless P (eraseEdit index)
  | settings (settings : Settings) : Harmless P (settingsEdit settings)

variable {P : Cow → Prop} {flash : Flash}

theorem AllStored.edit (h : AllStored P flash) {edit : Edit} (hedit : Harmless P edit) :
    AllStored P (flash.edit edit) := by
  intro index cow hcow
  cases hedit with
  | save other fits holds =>
    rw [storedCow?_saveEdit flash fits] at hcow
    split_ifs at hcow
    · exact Option.some.inj hcow ▸ holds
    · exact h index cow hcow
  | count count =>
    rw [storedCow?_countEdit] at hcow
    exact h index cow hcow
  | erase other =>
    rw [storedCow?_eraseEdit] at hcow
    split_ifs at hcow
    exact h index cow hcow
  | settings settings =>
    rw [storedCow?_settingsEdit] at hcow
    exact h index cow hcow

theorem AllStored.edited (h : AllStored P flash) {edits : List Edit}
    (hedits : ∀ edit ∈ edits, Harmless P edit) : AllStored P (flash.edited edits) := by
  induction edits generalizing flash with
  | nil => exact h
  | cons edit edits ih =>
    obtain ⟨hedit, hrest⟩ := List.forall_mem_cons.1 hedits
    exact ih (h.edit hedit) hrest

theorem harmless_truncation (count former : Nat) :
    ∀ edit ∈ truncation count former, Harmless P edit := by
  refine List.forall_mem_cons.2 ⟨.count count, fun edit hedit => ?_⟩
  obtain ⟨index, -, rfl⟩ := List.mem_map.1 hedit
  exact .erase index

theorem harmless_savings {cows : List Cow} (hfits : ∀ cow ∈ cows, cow.Fits)
    (hcows : ∀ cow ∈ cows, P cow) (index : Nat) : ∀ edit ∈ savings index cows, Harmless P edit := by
  induction cows generalizing index with
  | nil => simp [savings]
  | cons cow cows ih =>
    obtain ⟨hfit, hfits⟩ := List.forall_mem_cons.1 hfits
    obtain ⟨hcow, hcows⟩ := List.forall_mem_cons.1 hcows
    exact List.forall_mem_cons.2 ⟨.save index hfit hcow, ih hfits hcows (index + 1)⟩

theorem AllStored.storedCows (h : AllStored P flash) (index slots : Nat) :
    ∀ cow ∈ storedCows flash index slots, P cow := by
  intro cow hcow
  obtain ⟨slot, -, hslot⟩ := List.mem_filterMap.1 hcow
  exact h slot cow hslot

theorem AllStored.compaction (h : AllStored P flash) (slots : Nat) :
    AllStored P (flash.edited (compaction flash slots)) := by
  unfold HerdStore.compaction
  dsimp only
  split_ifs
  · exact h
  · rw [Flash.edited_append]
    refine (h.edited ?_).edited (harmless_truncation _ slots)
    exact harmless_savings (fun cow => fits_of_mem_storedCows) (h.storedCows 0 slots) 0

end HerdStore

namespace Steward

open HerdStore Storage

variable {P : Cow → Prop}

theorem allStored_found {flash : Flash} (h : AllStored P flash) : ∀ cow ∈ found flash, P cow := by
  unfold found
  split
  · exact h.storedCows 0 _
  · exact fun cow hcow => absurd hcow List.not_mem_nil

theorem allStored_boot {device : Device Unit} (h : AllStored P device.flash) :
    AllStored P (boot device).device.flash := by
  have hloaded : AllStored P (loadAll.on device).2.flash := by
    cases hcount : storedCount device.flash with
    | ok slots =>
      rw [loadAll_on_sound hcount]
      exact h.compaction slots
    | error error =>
      rw [loadAll_on_error hcount]
      exact h
  rw [boot_device]
  split_ifs
  · exact hloaded
  · obtain ⟨former, hresize⟩ := exists_resize_on_sound _ (Herd.sound_ofRecords (found device.flash))
      (loadAll.on device).2
    rw [hresize]
    exact hloaded.edited (harmless_truncation _ former)

theorem allStored_flushSlots {herd : Herd} (hfits : ∀ cow ∈ herd.cows, cow.Fits)
    (hherd : ∀ cow ∈ herd.cows, P cow) (slots : List Nat) {device : Device Unit}
    (h : AllStored P device.flash) : AllStored P (flushSlots herd slots device).device.flash := by
  induction slots generalizing device with
  | nil => exact h
  | cons slot slots ih =>
    unfold flushSlots
    cases hat : herd.at? slot with
    | none => exact ih h
    | some cow =>
      have hcow := List.mem_of_getElem? hat
      dsimp only
      rw [(save_carries device (hfits cow hcow) slot).on_sound]
      exact ih (h.edit (.save slot (hfits cow hcow) (hherd cow hcow)))

/-- The script of a plan saves cows that are in the herd before or after it. -/
theorem Planned.harmless {engine : Engine} {plan : Plan} (hplan : Planned engine plan)
    (hfits : ∀ cow ∈ engine.herd.cows, cow.Fits) (hherd : ∀ cow ∈ engine.herd.cows, P cow)
    (hdone : ∀ cow ∈ plan.done.herd.cows, P cow) : ∀ edit ∈ plan.script, Harmless P edit := by
  cases hplan with
  | @edit index cow recent here fits sound =>
    refine List.forall_mem_singleton.2 (.save index fits (hdone cow ?_))
    exact List.mem_set here cow
  | @create cow former recent fits sound =>
    refine List.forall_mem_cons.2 ⟨.save _ fits (hdone cow ?_), harmless_truncation _ former⟩
    exact List.mem_append_right _ (List.mem_singleton_self cow)
  | @deleteLast last former recent here => exact harmless_truncation _ former
  | @delete index last former recent here moved =>
    have hlast := List.mem_of_getElem? moved
    exact List.forall_mem_cons.2
      ⟨.save index (hfits last hlast) (hherd last hlast), harmless_truncation _ former⟩
  | @schedule settings valid fits => exact List.forall_mem_singleton.2 (.settings settings)

variable {s : Steward Unit}

theorem allStored_flush (hsound : s.engine.Sound) (h : AllStored P s.device.flash)
    (hherd : ∀ cow ∈ s.engine.herd.cows, P cow) : AllStored P s.flush.2.device.flash :=
  allStored_flushSlots hsound.fits hherd _ h

theorem allStored_serve (hsound : s.engine.Sound) (h : AllStored P s.device.flash)
    (hherd : ∀ cow ∈ s.engine.herd.cows, P cow) (request : Request)
    (hafter : ∀ cow ∈ (request.serve s).2.engine.herd.cows, P cow) :
    AllStored P (request.serve s).2.device.flash := by
  have hsettled : ∀ base : Steward Unit, base.engine.Sound → AllStored P base.device.flash →
      (∀ cow ∈ base.engine.herd.cows, P cow) → Settles base (request.serve s) →
      AllStored P (request.serve s).2.device.flash := by
    rintro base hbase hstored hcows (⟨error, hrefused⟩ | ⟨plan, hplan, hends⟩)
    · rw [hrefused]
      exact hstored
    · rw [hends.on_sound] at hafter ⊢
      exact hstored.edited (hplan.harmless hbase.fits hcows hafter)
  rcases request.serve_cases hsound.herd hsound.fits with rfl | ⟨base, rfl | rfl, hsettles⟩
  · obtain ⟨former, hends⟩ := clear_ends s
    have hserve : (Request.clear.serve s).2 = s.clear.2 := rfl
    rw [hserve, hends.on_sound]
    exact h.edited (harmless_truncation 0 former)
  · exact hsettled _ hsound h hherd hsettles
  · exact hsettled s.flush.2 (sound_flush hsound) (allStored_flush hsound h hherd) hherd hsettles

/-- An operation stores cows of the herd before it or after it. -/
theorem allStored_apply (hsound : s.engine.Sound) (h : AllStored P s.device.flash)
    (hherd : ∀ cow ∈ s.engine.herd.cows, P cow) (operation : Operation)
    (hafter : ∀ cow ∈ (operation.apply s).engine.herd.cows, P cow) :
    AllStored P (operation.apply s).device.flash := by
  cases operation with
  | allocate now tag station => exact h
  | flush => exact allStored_flush hsound h hherd
  | request asked => exact allStored_serve hsound h hherd asked hafter
  | reboot => exact allStored_boot h

end Steward

end Fodder
