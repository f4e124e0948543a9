import Fodder.Proofs.Herd.Loaded
import Fodder.Proofs.Herd.Records
import Fodder.Steward

/-!
# Starting from what is stored

The herd is made of the records that loading finds. When some of them are left out, the count is cut
at once, but the cows that stay are written into their new slots only at the next flush. Until then
the slots below the count hold the first records, as many as there are cows, and not always the cows.
-/
namespace Fodder.Steward

open HerdStore Storage

/-- The records that loading finds on a sound device. -/
def found (flash : Flash) : List Cow :=
  match storedCount flash with
  | .ok slots => storedCows flash 0 slots
  | .error _ => []

variable {flash : Flash} {cows : List Cow}

theorem loadAll_found (device : Device Unit) :
    (loadAll.on device).1.toOption.getD [] = found device.flash := by
  cases hcount : storedCount device.flash with
  | ok slots => simp [loadAll_on_sound hcount, found, hcount, Except.toOption]
  | error error => simp [loadAll_on_error hcount, found, hcount, Except.toOption]

theorem loadAll_settings (device : Device Unit) :
    storedSettings (loadAll.on device).2.flash = storedSettings device.flash := by
  cases hcount : storedCount device.flash with
  | ok slots => simp [loadAll_on_sound hcount, Device.after, storedSettings_compaction]
  | error error => simp [loadAll_on_error hcount]

theorem fits_of_mem_found {cow : Cow} (h : cow ∈ found flash) : cow.Fits := by
  unfold found at h
  split at h
  · exact fits_of_mem_storedCows h
  · cases h

theorem found_of_holds (h : Holds flash cows []) : found flash = cows := by
  simp only [found, h.count, h.storedCows_eq]

theorem boot_engine (device : Device Unit) :
    (boot device).engine =
      { herd := Herd.ofRecords (found device.flash)
        settings := startSettings (storedSettings device.flash)
        recent := RecentFeeds.ofHerd (Herd.ofRecords (found device.flash))
        pending :=
          if Herd.leftOut (found device.flash) = 0 then []
          else List.range (Herd.ofRecords (found device.flash)).size } := by
  rw [← loadAll_found, ← loadAll_settings, boot]
  dsimp only
  rw [loadSettings_on_sound]
  split_ifs <;> rfl

@[simp] theorem boot_herd (device : Device Unit) :
    (boot device).engine.herd = Herd.ofRecords (found device.flash) := by
  rw [boot_engine]

@[simp] theorem boot_settings (device : Device Unit) :
    (boot device).engine.settings = startSettings (storedSettings device.flash) := by
  rw [boot_engine]

theorem boot_device (device : Device Unit) :
    (boot device).device =
      if Herd.leftOut (found device.flash) = 0 then (loadAll.on device).2
      else ((resize (Herd.ofRecords (found device.flash)).size).on (loadAll.on device).2).2 := by
  rw [← loadAll_found, boot]
  dsimp only
  rw [loadSettings_on_sound]
  split_ifs <;> rfl

theorem size_ofRecords_le (records : List Cow) : (Herd.ofRecords records).size ≤ records.length :=
  (Herd.cows_ofRecords_sublist records).length_le

/-- Cutting the store to a size goes through on a sound device. -/
theorem exists_resize_on_sound (herd : Herd) (h : herd.Sound) (device : Device Unit) :
    ∃ former, ((resize herd.size).on device).2 = device.after (truncation herd.size former) () := by
  have hlt : herd.size < 65536 := h.size.trans_lt (by decide)
  obtain ⟨former, hcarries⟩ := resize_carries device hlt
  exact ⟨former, by rw [hcarries.on_sound]⟩

/-- Below the count there are the first records, as many as there are cows in the herd. -/
theorem holds_boot {device : Device Unit} {slots : Nat} (h : storedCount device.flash = .ok slots) :
    Holds (boot device).device.flash
      ((found device.flash).take (Herd.ofRecords (found device.flash)).size) [] := by
  have hloaded : Holds (loadAll.on device).2.flash (found device.flash) [] := by
    rw [loadAll_on_sound h, found, h]
    exact holds_compaction h
  rw [boot_device]
  split_ifs with hall
  · rw [Herd.leftOut_eq_zero_iff] at hall
    rw [Herd.size, hall, List.take_length]
    exact hloaded
  · obtain ⟨former, hresize⟩ := exists_resize_on_sound _ (Herd.sound_ofRecords (found device.flash))
      (loadAll.on device).2
    rw [hresize]
    exact hloaded.truncate (size_ofRecords_le _) former

theorem storedSettings_boot (device : Device Unit) :
    storedSettings (boot device).device.flash = storedSettings device.flash := by
  rw [boot_device]
  split_ifs with hall
  · exact loadAll_settings device
  · obtain ⟨former, hresize⟩ := exists_resize_on_sound _ (Herd.sound_ofRecords (found device.flash))
      (loadAll.on device).2
    rw [hresize, ← loadAll_settings device]
    exact storedSettings_truncation _ _ former

/-- Where the count cannot be read, nothing is found and nothing is touched. -/
theorem boot_of_error {device : Device Unit} {error : StorageError}
    (h : storedCount device.flash = .error error) :
    found device.flash = [] ∧ (boot device).device = device := by
  have hfound : found device.flash = [] := by simp only [found, h]
  have hall : Herd.leftOut (found device.flash) = 0 := by
    rw [hfound]
    rfl
  exact ⟨hfound, by rw [boot_device, if_pos hall, loadAll_on_error h]⟩

/-- A start from the contents finds the herd, in its order, and the schedule of the engine. -/
def Restores (flash : Flash) (engine : Engine) : Prop :=
  (boot (Device.sound flash)).engine.herd = engine.herd ∧
    (boot (Device.sound flash)).engine.settings = engine.settings

/-! ## Starting twice -/

/-- A start without a flush in between gives the same herd again exactly if the records that were
left out all came after those that were kept. -/
theorem herd_boot_boot_iff (flash : Flash) :
    (boot (Device.sound (boot (Device.sound flash)).device.flash)).engine.herd =
        (boot (Device.sound flash)).engine.herd ↔
      (boot (Device.sound flash)).engine.herd.cows <+:
        (loadAll.on (Device.sound flash)).1.toOption.getD [] := by
  have hcount : storedCount (Device.sound flash).flash = storedCount flash := rfl
  simp only [loadAll_found, boot_herd, Device.flash_sound]
  cases hstored : storedCount flash with
  | ok slots =>
    rw [found_of_holds (holds_boot (hcount.trans hstored))]
    exact Herd.ofRecords_take_size_iff (found flash)
  | error error =>
    obtain ⟨hfound, hdevice⟩ := boot_of_error (hcount.trans hstored)
    rw [Device.flash_sound] at hfound
    simp [hdevice, hfound, Herd.ofRecords]

/-- Three stored cows, the second of which wears no collar that a station could read. -/
def strayRecord : Flash :=
  let cow (name : String) (collar : UInt16) : Cow :=
    ⟨name, "276000123456", collar, ⟨1082130432⟩, 1700000000, []⟩
  Flash.edited {} [countEdit 3, saveEdit (cow "Anna" 1) 0, saveEdit (cow "Xaver" 0) 1,
    saveEdit (cow "Berta" 2) 2]

/-- The last cow is not found again by the second start. -/
theorem herd_boot_boot_strayRecord :
    (boot (Device.sound strayRecord)).engine.herd.names = ["Anna", "Berta"] ∧
      (boot (Device.sound (boot (Device.sound strayRecord)).device.flash)).engine.herd.names =
        ["Anna"] := by
  decide +kernel

end Fodder.Steward
