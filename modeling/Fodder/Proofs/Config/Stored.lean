import Fodder.Config.Store
import Fodder.Proofs.Blob.RoundTrip
import Fodder.Proofs.Flash.Script

/-!
# Stored configurations

A configuration that passes its check is stored in far less than what a blob may take, and is read
back as it was. It has a space of its own, so whatever changes elsewhere leaves it alone, and storing
it leaves everything else alone. Whatever bytes stand in its place, only a configuration that passes
its check is ever loaded from them.
-/
namespace Fodder

open Blob

namespace Config

theorem takes_millis (n : UInt32) : millis.Takes (varint n.toNat) n := by
  apply (Reader.takes_varint (by decide) (by decide) n.toNat_lt).andThen
  rw [UInt32.ofNat_toNat]
  exact Reader.Takes.pure n

theorem takes_reader (c : Config) : reader.Takes c.blob c := by
  apply (Reader.takes_byte c.stationCount).bind
  apply (takes_millis c.minDispenseIntervalMs).bind
  apply (takes_millis c.interByteTimeoutMs).bind
  apply (takes_millis c.groupQuery1TimeoutMs).bind
  apply (takes_millis c.groupQuery2TimeoutMs).bind
  apply (takes_millis c.presenceTimeoutMs).bind
  apply (takes_millis c.feedTimeoutMs).bind
  apply (takes_millis c.terminatorTimeoutMs).bind
  exact (takes_millis c.uartBaud).andThen (Reader.Takes.pure c)

/-- A stored configuration is read back as it was. -/
theorem ofBlob?_blob (c : Config) : ofBlob? c.blob = some c := (takes_reader c).front

theorem length_blob_le (c : Config) : c.blob.length ≤ Flash.blobCapacity := by
  have hmillis (n : UInt32) : (varint n.toNat).length ≤ 10 := length_varint_le n.toNat
  have h1 := hmillis c.minDispenseIntervalMs
  have h2 := hmillis c.interByteTimeoutMs
  have h3 := hmillis c.groupQuery1TimeoutMs
  have h4 := hmillis c.groupQuery2TimeoutMs
  have h5 := hmillis c.presenceTimeoutMs
  have h6 := hmillis c.feedTimeoutMs
  have h7 := hmillis c.terminatorTimeoutMs
  have h8 := hmillis c.uartBaud
  simp only [blob, List.length_cons, List.length_append, Flash.blobCapacity]
  omega

theorem check_eq_ok {c : Config} (h : c.Valid) : c.check = .ok () := by
  rw [check, (flaw?_eq_none_iff c).2 h]

/-- A configuration is refused with the reason of its first flaw. -/
theorem check_of_not_valid {c : Config} (h : ¬c.Valid) :
    ∃ reason, c.check = .error (.invalid reason) := by
  rw [check]
  cases hflaw : c.flaw? with
  | some flaw => exact ⟨flaw.reason, rfl⟩
  | none => exact absurd ((flaw?_eq_none_iff c).1 hflaw) h

theorem valid_of_check {c : Config} {passed : Unit} (h : c.check = .ok passed) : c.Valid := by
  rw [check] at h
  split at h
  · cases h
  · rename_i hflaw
    exact (flaw?_eq_none_iff c).1 hflaw

end Config

namespace Flash

variable {flash : Flash} {config : Config}

/-- The change that storing a configuration makes. -/
def configEdit (config : Config) : Edit := ⟨configSpace, configKey, .write config.blob⟩

theorem storeConfig_of_valid (flash : Flash) (h : config.Valid) :
    flash.storeConfig config = (.ok (), flash.edit (configEdit config)) := by
  have hroom : ¬blobCapacity < config.blob.length := Nat.not_lt.2 config.length_blob_le
  simp only [storeConfig, Config.check_eq_ok h, Flash.write, if_neg hroom]
  rfl

theorem storeConfig_of_error {error : ConfigError} (flash : Flash) (h : config.check = .error error) :
    flash.storeConfig config = (.error error, flash) := by
  simp only [storeConfig, h]

theorem loadConfig_configEdit (flash : Flash) (h : config.Valid) :
    (flash.edit (configEdit config)).loadConfig = .ok config := by
  have hroom : ¬blobCapacity < config.blob.length := Nat.not_lt.2 config.length_blob_le
  have hread : (flash.edit (configEdit config)).read configSpace configKey blobCapacity =
      .ok config.blob := by
    rw [read, configEdit, get?_edit, if_pos rfl]
    exact if_neg hroom
  simp only [loadConfig, hread, Config.ofBlob?_blob, Config.check_eq_ok h]

/-- Changes at other places leave the stored configuration as it is. -/
theorem loadConfig_edited {edits : List Edit}
    (h : ∀ edit ∈ edits, path configSpace configKey ≠ path edit.space edit.key) (flash : Flash) :
    (flash.edited edits).loadConfig = flash.loadConfig := by
  induction edits generalizing flash with
  | nil => rfl
  | cons edit edits ih =>
    obtain ⟨hedit, hedits⟩ := List.forall_mem_cons.1 h
    refine (ih hedits (flash.edit edit)).trans ?_
    rw [loadConfig, loadConfig, read_edit_of_ne flash hedit]

/-- Names without a colon can be read off a path. -/
theorem eq_of_path_eq {space key other name : String} (hother : ':' ∉ other.toList)
    (hname : ':' ∉ name.toList) (h : path space key = path other name) :
    space = other ∧ key = name := by
  have hlist : space.toList ++ ':' :: ':' :: key.toList =
      other.toList ++ ':' :: ':' :: name.toList := by
    simpa [path] using congrArg String.toList h
  -- Both sides have two colons, so on the left there is none but those of the separator either.
  have hcount := congrArg (List.count ':') hlist
  simp only [List.count_append, List.count_cons_self, List.count_eq_zero.2 hother,
    List.count_eq_zero.2 hname] at hcount
  have hspace : ':' ∉ space.toList := List.count_eq_zero.1 (by omega)
  have hlength : space.toList.length = other.toList.length := by
    have hfirst := congrArg (List.idxOf ':') hlist
    rwa [List.idxOf_append_of_notMem hspace, List.idxOf_append_of_notMem hother,
      List.idxOf_cons_self, List.idxOf_cons_self, Nat.add_zero, Nat.add_zero] at hfirst
  obtain ⟨hspaces, hrest⟩ := List.append_inj hlist hlength
  exact ⟨String.toList_inj.1 hspaces, String.toList_inj.1 (by simpa using hrest)⟩

/-- The configuration is stored under its own space and key only. -/
theorem get?_configEdit_of_ne (flash : Flash) (config : Config) {space key : String}
    (h : ¬(space = configSpace ∧ key = configKey)) :
    (flash.edit (configEdit config)).get? (path space key) = flash.get? (path space key) :=
  get?_edit_of_ne flash fun heq => h (eq_of_path_eq (by decide) (by decide) heq)

/-- Only a configuration that passes its check is loaded, whatever is stored. -/
theorem valid_of_loadConfig (h : flash.loadConfig = .ok config) : config.Valid := by
  unfold loadConfig at h
  split at h
  · obtain rfl := Except.ok.inj h
    exact Config.valid_default
  · cases h
  · split at h
    · cases h
    · split at h
      · cases h
      · rename_i found _ passed hcheck
        obtain rfl := Except.ok.inj h
        exact Config.valid_of_check hcheck

theorem loadConfig_of_missing (h : flash.get? (path configSpace configKey) = none) :
    flash.loadConfig = .ok {} := by
  simp only [loadConfig, read, h]

/-- The contents after an attempt to store a configuration. -/
def afterSaveConfig (flash : Flash) (config : Config) : Flash := (flash.storeConfig config).2

/-- A configuration is stored, and nothing else is touched. -/
structure StoresConfig (flash : Flash) (config : Config) : Prop where
  answer : flash.saveConfig config = .ok (flash.afterSaveConfig config)
  elsewhere : ∀ space key, ¬(space = configSpace ∧ key = configKey) →
    (flash.afterSaveConfig config).get? (path space key) = flash.get? (path space key)
  loaded : (flash.afterSaveConfig config).loadConfig = .ok config

/-- A configuration is refused, and nothing at all is touched. -/
structure RefusesConfig (flash : Flash) (config : Config) : Prop where
  answer : ∃ reason, config.check = .error (.invalid reason) ∧
    flash.saveConfig config = .error (.invalid reason)
  everywhere : flash.afterSaveConfig config = flash

theorem storesConfig_of_valid (flash : Flash) (h : config.Valid) : flash.StoresConfig config := by
  have hstored := flash.storeConfig_of_valid h
  have hafter : flash.afterSaveConfig config = flash.edit (configEdit config) := by
    rw [afterSaveConfig, hstored]
  refine ⟨by rw [saveConfig, hstored, hafter], fun space key hne => ?_, ?_⟩
  · rw [hafter, get?_configEdit_of_ne flash config hne]
  · rw [hafter, loadConfig_configEdit flash h]

theorem refusesConfig_of_not_valid (flash : Flash) (h : ¬config.Valid) :
    flash.RefusesConfig config := by
  obtain ⟨reason, hcheck⟩ := Config.check_of_not_valid h
  have hrefused := flash.storeConfig_of_error hcheck
  exact ⟨⟨reason, hcheck, by rw [saveConfig, hrefused]⟩, by rw [afterSaveConfig, hrefused]⟩

/-- Whatever is stored, an attempt to store a configuration succeeds exactly if it passes its check;
what is loaded passes it and can be stored again; where nothing is stored the default is loaded. -/
theorem keepsConfig (flash : Flash) :
    (∀ config : Config, config.Valid ∧ flash.StoresConfig config ∨
        ¬config.Valid ∧ flash.RefusesConfig config) ∧
      (∀ config, flash.loadConfig = .ok config → config.Valid ∧ flash.StoresConfig config) ∧
      (flash.get? (path configSpace configKey) = none → flash.loadConfig = .ok {}) := by
  refine ⟨fun config => ?_, fun config hload => ?_, loadConfig_of_missing⟩
  · by_cases hvalid : config.Valid
    · exact .inl ⟨hvalid, storesConfig_of_valid flash hvalid⟩
    · exact .inr ⟨hvalid, refusesConfig_of_not_valid flash hvalid⟩
  · have hvalid := valid_of_loadConfig hload
    exact ⟨hvalid, storesConfig_of_valid flash hvalid⟩

end Flash

end Fodder
