import Fodder.Proofs.Form.Written
import Fodder.Proofs.Steward.Atomic

/-!
# Schedules as the management page sends and shows them

A schedule may be sent in many forms, but it is shown in one. That one is read again as the schedule
if there is nothing wrong with it, and refused like the schedule itself if there is.
-/
namespace Fodder

namespace Settings

variable {s : Settings}

theorem byte?_natural (b : UInt8) : byte? (.natural b.toNat) = some b := by
  have hle : b.toNat ≤ 255 := Nat.le_of_lt_succ b.toNat_lt
  simp [byte?, Form.Number.nat?, hle]

theorem mapM_byte?_natural (bs : List UInt8) :
    (bs.map fun b => Form.Number.natural b.toNat).mapM byte? = some bs := by
  have hread : (byte? ∘ fun b : UInt8 => Form.Number.natural b.toNat) = fun b => pure b :=
    funext byte?_natural
  rw [List.mapM_map, hread, List.mapM_pure, List.map_id']
  rfl

/-- The values of the fields that a schedule writes. -/
def formEntries (s : Settings) : List (String × Form.Value) :=
  [("reset_offsets", .numbers (s.resets.map fun hour => .natural hour.toNat)),
    ("rations_per_window", .number (.natural s.rations.toNat))]

theorem toNat_lt_size (b : UInt8) : b.toNat < UInt64.size := b.toNat_lt.trans (by decide)

theorem ofString_json (s : Settings) : Form.ofString s.json = some (.named s.formEntries) := by
  have hresets : ∀ n ∈ s.resets.map UInt8.toNat, n < UInt64.size := by
    rintro n hn
    obtain ⟨hour, -, rfl⟩ := List.mem_map.1 hn
    exact toNat_lt_size hour
  have hlist := Form.writes_naturals hresets
  rw [List.map_map, List.map_map] at hlist
  exact Form.ofString_object
    (.cons ⟨rfl, hlist⟩ (.cons ⟨rfl, Form.writes_natural (toNat_lt_size s.rations)⟩ .nil))

theorem ofForm?_formEntries (h : s.Fits) : ofForm? (.named s.formEntries) = some s := by
  have hroom : ¬maxResets < (s.resets.map fun hour => Form.Number.natural hour.toNat).length := by
    rw [List.length_map]
    exact Nat.not_lt.2 h
  have harrange : (Form.named s.formEntries).arrange formFields =
      some [.numbers (s.resets.map fun hour => .natural hour.toNat),
        .number (.natural s.rations.toNat)] := rfl
  rw [ofForm?, harrange]
  simp only [Option.bind_eq_bind, Option.bind_some, if_neg hroom, mapM_byte?_natural, byte?_natural]
  rfl

/-- A schedule is read again as it is shown, if it has no flaw. -/
theorem ofJson_json (h : s.Fits) : ofJson s.json = s.check.map fun _ => s := by
  rw [ofJson, ofString_json, Option.bind_some, ofForm?_formEntries h]
  dsimp only
  cases s.check <;> rfl

theorem check_eq_ok_iff : s.check = .ok () ↔ s.Valid := by
  rw [← flaw?_eq_none_iff, check]
  cases s.flaw? <;> simp

/-- Only schedules without a flaw are read. -/
theorem valid_of_ofJson {json : String} (h : ofJson json = .ok s) : s.Valid := by
  unfold ofJson at h
  split at h
  · cases h
  · split at h
    · cases h
    · rename_i hcheck
      obtain rfl := Except.ok.inj h
      exact check_eq_ok_iff.1 hcheck

end Settings

namespace Steward

open HerdStore

variable {s : Settings} {json : String}

/-- On a sound device, a text that gives a schedule is carried out. -/
theorem setSettingsJson_of_ok (h : Settings.ofJson json = .ok s) (steward : Steward Unit) :
    steward.setSettingsJson json =
      (.ok (), ⟨{ steward.engine with settings := s }, steward.device.after [settingsEdit s] ()⟩) := by
  rw [setSettingsJson, h]
  exact (setSettings_ends (Settings.valid_of_ofJson h) (settingsFits_of_ofJson h)).on_sound

/-- The text is taken, and what is shown from then on is the text of the schedule. -/
structure Adopts (steward : Steward Unit) (json : String) (s : Settings) : Prop where
  taken : (steward.setSettingsJson json).1 = .ok ()
  shown : (steward.setSettingsJson json).2.engine.settingsJson = s.json
  restarted : (boot (steward.setSettingsJson json).2.device).engine.settingsJson = s.json

theorem adopts (h : Settings.ofJson json = .ok s) (steward : Steward Unit) :
    steward.Adopts json s := by
  have hstored : storedSettings (steward.device.after [settingsEdit s] ()).flash = .ok s :=
    storedSettings_settingsEdit _ (settingsFits_of_ofJson h)
  have hset := setSettingsJson_of_ok h steward
  refine ⟨by rw [hset], by rw [hset]; rfl, ?_⟩
  rw [hset, Engine.settingsJson, boot_settings, hstored,
    startSettings_ok (Settings.valid_of_ofJson h)]

/-- What a schedule writes is read as the schedule, or refused for the flaw that its check finds. Any
text that is read at all is read as a schedule without a flaw, and once it is set, the text of that
schedule is shown in its place, before and after a start. -/
theorem settingsJson_canonical :
    (∀ s : Settings, s.Fits → Settings.ofJson s.json = s.check.map fun _ => s) ∧
      ∀ (json : String) (s : Settings), Settings.ofJson json = .ok s →
        s.Valid ∧ Settings.ofJson s.json = .ok s ∧
          ∀ steward : Steward Unit, steward.Adopts json s := by
  refine ⟨fun s => Settings.ofJson_json, fun json s h => ?_⟩
  have hvalid := Settings.valid_of_ofJson h
  refine ⟨hvalid, ?_, adopts h⟩
  rw [Settings.ofJson_json (settingsFits_of_ofJson h), Settings.check_eq_ok_iff.2 hvalid]
  rfl

/-- The fields in the other order, with blanks, and a letter of a key by its number. -/
def spelledOut : String :=
  " \x7b\"rations_per_w\\u0069ndow\" : 3 ,\n\"reset_offsets\":[ 6,18 ]\x7d"

theorem settingsJson_canonical_spelledOut :
    Settings.ofJson (Settings.json ⟨[18, 6], 3⟩) = .error (.invalid Settings.Flaw.order.reason) ∧
      Settings.ofJson spelledOut = .ok ⟨[6, 18], 3⟩ ∧
      Settings.ofJson (Settings.json ⟨[6, 18], 3⟩) = .ok ⟨[6, 18], 3⟩ ∧
      ∀ steward : Steward Unit,
        steward.Adopts spelledOut ⟨[6, 18], 3⟩ ∧ steward.Adopts "[[6,18],3]" ⟨[6, 18], 3⟩ := by
  obtain ⟨hwritten, htaken⟩ := settingsJson_canonical
  have hroom : Settings.Fits ⟨[18, 6], 3⟩ := by simp [Settings.Fits, Settings.maxResets]
  have hspelled : Settings.ofJson spelledOut = .ok ⟨[6, 18], 3⟩ := by decide +kernel
  have hlist : Settings.ofJson "[[6,18],3]" = .ok ⟨[6, 18], 3⟩ := by decide +kernel
  obtain ⟨-, hagain, hadopts⟩ := htaken _ _ hspelled
  exact ⟨hwritten _ hroom, hspelled, hagain, fun steward =>
    ⟨hadopts steward, (htaken _ _ hlist).2.2 steward⟩⟩

end Steward

end Fodder
