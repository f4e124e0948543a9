import Fodder.Proofs.Config.Stored
import Fodder.Proofs.Herd.Loaded

/-!
# The store as a table

Seen from outside, the store is a count, a cow or none for every number of a slot, a schedule and a
configuration. On a sound device it never answers otherwise than such a table would, although it
keeps everything as blobs under keys: keys do not clash, whatever is saved has room and is read
back, and moving cows up in place loses none of them. A slot beyond the count keeps its cow until the
count passes over it.
-/
namespace Fodder.HerdStore

open Storage

/-- What the store means to its users. Slots at or beyond the count may be taken as well. -/
structure Table where
  count : Nat := 0
  slot : Nat → Option Cow := fun _ => none
  schedule : Option Settings := none
  config : Option Config := none

/-- What can be asked of the store. Cows and schedules are within the room of their layouts. -/
inductive Task
  | save (cow : Cow) (fits : cow.Fits) (index : Nat)
  | resize (count : Nat)
  | loadAll
  | saveSettings (settings : Settings) (fits : settings.Fits)
  | loadSettings
  | saveConfig (config : Config)
  | loadConfig

inductive Answer
  | done (outcome : Except StorageError Unit)
  | cows (outcome : Except StorageError (List Cow))
  | settings (outcome : Except StorageError Settings)
  | configured (outcome : Except ConfigError Unit)
  | config (outcome : Except ConfigError Config)

/-- What the store does. -/
def Task.run : Task → Device Unit → Answer × Device Unit
  | save cow _ index, device =>
    let (outcome, device) := (HerdStore.save cow index).on device
    (.done outcome, device)
  | resize count, device =>
    let (outcome, device) := (HerdStore.resize count).on device
    (.done outcome, device)
  | loadAll, device =>
    let (outcome, device) := HerdStore.loadAll.on device
    (.cows outcome, device)
  | saveSettings settings _, device =>
    let (outcome, device) := (HerdStore.saveSettings settings).on device
    (.done outcome, device)
  | loadSettings, device =>
    let (outcome, device) := HerdStore.loadSettings.on device
    (.settings outcome, device)
  | saveConfig config, device =>
    let (outcome, flash) := device.flash.storeConfig config
    (.configured outcome, { device with flash })
  | loadConfig, device => (.config device.flash.loadConfig, device)

def answers (device : Device Unit) : List Task → List Answer
  | [] => []
  | task :: tasks => (task.run device).1 :: answers (task.run device).2 tasks

namespace Table

/-- The cows in the slots below the count. -/
def cows (table : Table) : List Cow := (List.range table.count).filterMap table.slot

/-- The cows below the count, moved up if one of the slots there is empty. -/
def compacted (table : Table) : Table :=
  if table.cows.length = table.count then table
  else
    { table with
      count := table.cows.length
      slot := fun i => if i < table.count then table.cows[i]? else table.slot i }

/-- What a table does. -/
def perform (table : Table) : Task → Answer × Table
  | .save cow _ index =>
    (.done (.ok ()), { table with slot := fun i => if i = index then some cow else table.slot i })
  | .resize count =>
    if 65535 < count then (.done (.error .full), table)
    else
      (.done (.ok ()),
        { table with
          count
          slot := fun i => if count ≤ i ∧ i < table.count then none else table.slot i })
  | .loadAll => (.cows (.ok table.cows), table.compacted)
  | .saveSettings settings _ => (.done (.ok ()), { table with schedule := some settings })
  | .loadSettings => (.settings (.ok (table.schedule.getD {})), table)
  | .saveConfig config =>
    match config.check with
    | .error error => (.configured (.error error), table)
    | .ok () => (.configured (.ok ()), { table with config := some config })
  | .loadConfig => (.config (.ok (table.config.getD {})), table)

def answers (table : Table) : List Task → List Answer
  | [] => []
  | task :: tasks => (table.perform task).1 :: answers (table.perform task).2 tasks

end Table

/-- The contents mean a table. -/
structure Shows (flash : Flash) (table : Table) : Prop where
  count : storedCount flash = .ok table.count
  slot : ∀ i, storedCow? flash i = table.slot i
  schedule : storedSettings flash = .ok (table.schedule.getD {})
  config : flash.loadConfig = .ok (table.config.getD {})

/-! ## Apart from the configuration -/

/-- The configuration is stored in another space than the herd. -/
theorem path_config_ne (key : String) :
    Flash.path Flash.configSpace Flash.configKey ≠ Flash.path space key := by
  intro h
  obtain ⟨hspaces, -⟩ := Flash.eq_of_path_eq (by decide) (by decide) h.symm
  exact absurd hspaces (by decide)

theorem loadConfig_edited {edits : List Edit} (h : ∀ edit ∈ edits, edit.space = space)
    (flash : Flash) : (flash.edited edits).loadConfig = flash.loadConfig := by
  apply Flash.loadConfig_edited
  intro edit hedit
  rw [h edit hedit]
  exact path_config_ne edit.key

theorem loadConfig_edit (edit : Edit) (h : edit.space = space) (flash : Flash) :
    (flash.edit edit).loadConfig = flash.loadConfig := by
  have hedits : ∀ other ∈ [edit], other.space = space := by simpa using h
  exact loadConfig_edited hedits flash

theorem read_configEdit (flash : Flash) (config : Config) (key : String) (room : Nat) :
    (flash.edit (Flash.configEdit config)).read space key room = flash.read space key room :=
  Flash.read_edit_of_ne flash (path_config_ne key).symm room

theorem space_of_mem_truncation {count former : Nat} {edit : Edit}
    (h : edit ∈ truncation count former) : edit.space = space := by
  rcases List.mem_cons.1 h with rfl | herased
  · rfl
  · obtain ⟨slot, -, rfl⟩ := List.mem_map.1 herased
    rfl

theorem space_of_mem_savings {index : Nat} {cows : List Cow} {edit : Edit}
    (h : edit ∈ savings index cows) : edit.space = space := by
  induction cows generalizing index with
  | nil => cases h
  | cons cow cows ih =>
    rcases List.mem_cons.1 h with rfl | hlater
    · rfl
    · exact ih hlater

theorem space_of_mem_compaction {flash : Flash} {slots : Nat} {edit : Edit}
    (h : edit ∈ compaction flash slots) : edit.space = space := by
  unfold compaction at h
  dsimp only at h
  split_ifs at h
  · cases h
  · rcases List.mem_append.1 h with hsaved | hcut
    · exact space_of_mem_savings hsaved
    · exact space_of_mem_truncation hcut

/-! ## One task -/

theorem resize_on_sound {device : Device Unit} {former : Nat}
    (h : storedCount device.flash = .ok former) (count : Nat) :
    (resize count).on device =
      if 65535 < count then (.error .full, device)
      else (.ok (), device.after (truncation count former) ()) := by
  rw [resize, on_bind, on_attempt, count_on_sound, h]
  change (truncate count former).on device = _
  split_ifs with hcount
  · have hsize : UInt16.size ≤ count := hcount
    rw [truncate, writeCount, if_pos hsize]
    rfl
  · exact (truncate_carries device (by omega) former).on_sound

variable {flash : Flash} {table : Table}

theorem Shows.storedCows_eq (h : Shows flash table) : storedCows flash 0 table.count = table.cows := by
  have hslots : storedCow? flash = table.slot := funext h.slot
  rw [storedCows, hslots, Table.cows, List.range_eq_range']

theorem shows_empty : Shows {} {} where
  count := rfl
  slot _ := rfl
  schedule := rfl
  config := rfl

theorem Shows.save (h : Shows flash table) {cow : Cow} (hfits : cow.Fits) (index : Nat) :
    Shows (flash.edit (saveEdit cow index)) (table.perform (.save cow hfits index)).2 where
  count := (storedCount_saveEdit flash cow index).trans h.count
  slot i := by rw [storedCow?_saveEdit flash hfits, h.slot i, Table.perform]
  schedule := (storedSettings_saveEdit flash cow index).trans h.schedule
  config := (loadConfig_edit (saveEdit cow index) rfl flash).trans h.config

theorem Shows.resize (h : Shows flash table) {count : Nat} (hcount : ¬65535 < count) :
    Shows (flash.edited (truncation count table.count)) (table.perform (.resize count)).2 := by
  rw [Table.perform, if_neg hcount]
  constructor
  · exact storedCount_truncation flash (by omega) table.count
  · intro i
    dsimp only
    rcases Nat.lt_or_ge i count with hlt | hle
    · rw [storedCow?_truncation flash hlt, if_neg (by omega), h.slot i]
    · rw [storedCow?_truncation_of_le flash hle, h.slot i]
      simp only [hle, true_and]
  · exact (storedSettings_truncation flash count table.count).trans h.schedule
  · exact (loadConfig_edited (fun _ => space_of_mem_truncation) flash).trans h.config

theorem Shows.loadAll (h : Shows flash table) :
    Shows (flash.edited (compaction flash table.count)) table.compacted := by
  have hlength := length_storedCows_le flash 0 table.count
  have hlt := storedCount_lt h.count
  have hfits : ∀ cow ∈ table.cows, cow.Fits := by
    rw [← h.storedCows_eq]
    exact fun cow => fits_of_mem_storedCows
  have hsettings := storedSettings_compaction flash table.count
  have hconfig : (flash.edited (compaction flash table.count)).loadConfig = flash.loadConfig :=
    loadConfig_edited (fun _ => space_of_mem_compaction) flash
  unfold Table.compacted
  unfold compaction at hsettings hconfig ⊢
  rw [h.storedCows_eq] at hlength hsettings hconfig ⊢
  dsimp only at hsettings hconfig ⊢
  split_ifs at hsettings hconfig ⊢ with hall
  · exact h
  · rw [Flash.edited_append] at hsettings hconfig ⊢
    constructor
    · exact storedCount_truncation _ (by omega) table.count
    · intro i
      dsimp only
      rcases Nat.lt_or_ge i table.cows.length with hkept | hle
      · -- The cow that moved here, possibly from further down.
        have hsaved : storedCow? (flash.edited (savings 0 table.cows)) (0 + i) = table.cows[i]? :=
          storedCow?_savings flash hfits hkept
        rw [Nat.zero_add] at hsaved
        rw [storedCow?_truncation _ hkept, hsaved, if_pos (by omega)]
      · rw [storedCow?_truncation_of_le _ hle,
          storedCow?_savings_of_le flash hfits (by omega), h.slot i,
          List.getElem?_eq_none hle]
    · exact hsettings.trans h.schedule
    · exact hconfig.trans h.config

theorem Shows.saveSettings (h : Shows flash table) {settings : Settings} (hfits : settings.Fits) :
    Shows (flash.edit (settingsEdit settings)) (table.perform (.saveSettings settings hfits)).2 where
  count := (storedCount_settingsEdit flash settings).trans h.count
  slot i := (storedCow?_settingsEdit flash settings i).trans (h.slot i)
  schedule := storedSettings_settingsEdit flash hfits
  config := (loadConfig_edit (settingsEdit settings) rfl flash).trans h.config

theorem Shows.saveConfig (h : Shows flash table) {config : Config} (hvalid : config.Valid) :
    Shows (flash.edit (Flash.configEdit config)) { table with config := some config } where
  count := by
    rw [storedCount, read_configEdit]
    exact h.count
  slot i := by
    rw [storedCow?, read_configEdit]
    exact h.slot i
  schedule := by
    rw [storedSettings, read_configEdit]
    exact h.schedule
  config := Flash.loadConfig_configEdit flash hvalid

/-- The store answers as the table does, and means the next table afterwards. -/
theorem Shows.run {device : Device Unit} (h : Shows device.flash table) (task : Task) :
    (task.run device).1 = (table.perform task).1 ∧
      Shows (task.run device).2.flash (table.perform task).2 := by
  cases task with
  | save cow fits index =>
    rw [Task.run, (save_carries device fits index).on_sound]
    exact ⟨rfl, h.save fits index⟩
  | resize count =>
    rw [Task.run, resize_on_sound h.count]
    by_cases hcount : 65535 < count
    · rw [Table.perform, if_pos hcount, if_pos hcount]
      exact ⟨rfl, h⟩
    · have hshows := h.resize hcount
      rw [Table.perform, if_neg hcount] at hshows ⊢
      rw [if_neg hcount]
      exact ⟨rfl, hshows⟩
  | loadAll =>
    rw [Task.run, loadAll_on_sound h.count]
    exact ⟨congrArg (fun cows => Answer.cows (.ok cows)) h.storedCows_eq, h.loadAll⟩
  | saveSettings settings fits =>
    rw [Task.run, (saveSettings_carries device fits).on_sound]
    exact ⟨rfl, h.saveSettings fits⟩
  | loadSettings =>
    rw [Task.run, loadSettings_on_sound, h.schedule]
    exact ⟨rfl, h⟩
  | saveConfig config =>
    rw [Task.run, Table.perform]
    cases hcheck : config.check with
    | error error =>
      rw [Flash.storeConfig_of_error device.flash hcheck]
      exact ⟨rfl, h⟩
    | ok passed =>
      have hvalid := Config.valid_of_check hcheck
      rw [Flash.storeConfig_of_valid device.flash hvalid]
      exact ⟨rfl, h.saveConfig hvalid⟩
  | loadConfig =>
    rw [Task.run, h.config]
    exact ⟨rfl, h⟩

theorem Shows.answers_eq {device : Device Unit} (h : Shows device.flash table) (tasks : List Task) :
    HerdStore.answers device tasks = table.answers tasks := by
  induction tasks generalizing device table with
  | nil => rfl
  | cons task tasks ih =>
    obtain ⟨hanswer, hshows⟩ := h.run task
    rw [HerdStore.answers, Table.answers, hanswer, ih hshows]

/-- An empty device without faults answers any tasks as an empty table does. Whatever they save has
room in a blob, and a schedule has room where it is read into. -/
theorem answers_eq_table (tasks : List Task) :
    answers (Device.sound {}) tasks = Table.answers {} tasks ∧
      (∀ cow : Cow, cow.Fits → cow.blob.length ≤ Flash.blobCapacity) ∧
      ∀ settings : Settings, settings.Fits → settings.blob.length ≤ settingsRoom := by
  have hempty : Shows (Device.sound {}).flash {} := shows_empty
  refine ⟨hempty.answers_eq tasks, ?_, ?_⟩
  · intro cow hfits
    exact cow.length_blob_le hfits
  · intro settings hfits
    exact (settings.length_blob_le hfits).trans (by decide)

end Fodder.HerdStore
