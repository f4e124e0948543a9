import Fodder.Proofs.Steward.Plan

/-!
# Operations of a steward

Whatever happens to a steward is an allocation, a flush, a request of the management page or a new
start from the device. A run is a list of them, one after the other.
-/
namespace Fodder.Steward

/-- What the management page can ask for. Records and schedules given as such are within the room of
their layouts. -/
inductive Request
  | upsert (cow : Cow) (fits : cow.Fits)
  | upsertJson (json : String)
  | delete (name : String)
  | clear
  | setSettings (settings : Settings) (fits : settings.Fits)
  | setSettingsJson (json : String)

inductive Refusal
  | herd (error : HerdError)
  | settings (error : SettingsError)
  deriving DecidableEq, Repr

inductive Operation
  /-- A collar at a station, at a reading of the wall clock. -/
  | allocate (now : Nat) (tag : UInt16) (station : UInt8)
  | flush
  | request (request : Request)
  | reboot

variable {φ : Type} [FaultSource φ]

def Request.serve : Request → Steward φ → Except Refusal Unit × Steward φ
  | upsert cow _, s => ((s.upsert cow).1.mapError .herd, (s.upsert cow).2)
  | upsertJson json, s => ((s.upsertJson json).1.mapError .herd, (s.upsertJson json).2)
  | delete name, s => ((s.delete name).1.mapError .herd, (s.delete name).2)
  | clear, s => (s.clear.1.mapError .herd, s.clear.2)
  | setSettings settings _, s =>
    ((s.setSettings settings).1.mapError .settings, (s.setSettings settings).2)
  | setSettingsJson json, s =>
    ((s.setSettingsJson json).1.mapError .settings, (s.setSettingsJson json).2)

def Operation.apply : Operation → Steward φ → Steward φ
  | allocate now tag station, s => { s with engine := (s.engine.allocate now tag station).2 }
  | flush, s => s.flush.2
  | request asked, s => (asked.serve s).2
  | reboot, s => boot s.device

def run (s : Steward φ) (operations : List Operation) : Steward φ :=
  operations.foldl (fun s operation => operation.apply s) s

/-- What every operation keeps holds after a run. -/
theorem run_induction (Holds : Steward φ → Prop)
    (happly : ∀ (s : Steward φ) (operation : Operation), Holds s → Holds (operation.apply s))
    {s : Steward φ} (h : Holds s) (operations : List Operation) : Holds (s.run operations) := by
  induction operations generalizing s with
  | nil => exact h
  | cons operation operations ih => exact ih (happly s operation h)

/-! ## Forms -/

/-- A cow that comes by a form has what was filled in, within the limits of texts, and no feeds. -/
theorem exists_filled_of_ofJson {json : String} {cow : Cow} (h : Cow.ofJson json = .ok cow) :
    ∃ filled : Cow.Filled, filled.name.utf8ByteSize ≤ Cow.nameCapacity ∧
      filled.earTag.utf8ByteSize ≤ Cow.earTagLength ∧
      cow = { name := filled.name, earTag := filled.earTag, collar := UInt16.ofNat filled.collar,
              ration := filled.ration, calvingDay := filled.calvingDay } := by
  unfold Cow.ofJson at h
  split at h
  · cases h
  · rename_i filled hfilled
    split at h
    · cases h
    · rename_i found hcow
      obtain rfl := Except.ok.inj h
      unfold Cow.Filled.cow at hcow
      split_ifs at hcow with hname hear hcollar
      dsimp only at hcow
      split at hcow
      · cases hcow
      · obtain rfl := Except.ok.inj hcow
        exact ⟨filled, Nat.not_lt.1 hname, Nat.not_lt.1 hear, rfl⟩

theorem fits_of_ofJson {json : String} {cow : Cow} (h : Cow.ofJson json = .ok cow) : cow.Fits := by
  obtain ⟨filled, hname, hear, rfl⟩ := exists_filled_of_ofJson h
  exact ⟨hname, hear, Nat.zero_le _⟩

theorem length_of_mapM {α β : Type} {f : α → Option β} {items : List α} {results : List β}
    (h : items.mapM f = some results) : results.length = items.length := by
  induction items generalizing results with
  | nil =>
    obtain rfl := Option.some.inj h
    rfl
  | cons a items ih =>
    rw [List.mapM_cons] at h
    obtain ⟨b, -, h⟩ := Option.bind_eq_some_iff.1 h
    obtain ⟨rest, hrest, h⟩ := Option.bind_eq_some_iff.1 h
    obtain rfl := Option.some.inj h
    rw [List.length_cons, List.length_cons, ih hrest]

theorem settingsFits_of_ofJson {json : String} {settings : Settings}
    (h : Settings.ofJson json = .ok settings) : settings.Fits := by
  unfold Settings.ofJson at h
  split at h
  · cases h
  · rename_i found hform
    split at h
    · cases h
    · obtain rfl := Except.ok.inj h
      obtain ⟨form, -, hform⟩ := Option.bind_eq_some_iff.1 hform
      unfold Settings.ofForm? at hform
      obtain ⟨values, -, hvalues⟩ := Option.bind_eq_some_iff.1 hform
      split at hvalues
      · rename_i hours rations
        split_ifs at hvalues with hroom
        obtain ⟨resets, hresets, hrest⟩ := Option.bind_eq_some_iff.1 hvalues
        obtain ⟨rations, -, hpure⟩ := Option.bind_eq_some_iff.1 hrest
        obtain rfl := Option.some.inj hpure
        exact (length_of_mapM hresets).trans_le (Nat.not_lt.1 hroom)
      · cases hvalues

/-! ## What a request does -/

variable {s : Steward φ}

theorem settles_upsertJson (hsound : s.engine.herd.Sound)
    (hherd : ∀ cow ∈ s.engine.herd.cows, cow.Fits) (json : String) :
    ∃ base, (base = s ∨ base = s.flush.2) ∧ Settles base (s.upsertJson json) := by
  unfold upsertJson
  cases hjson : Cow.ofJson json with
  | error error => exact ⟨s, .inl rfl, .inl ⟨error, rfl⟩⟩
  | ok cow => exact ⟨s.flush.2, .inr rfl, settles_upsert hsound hherd (fits_of_ofJson hjson)⟩

theorem settles_setSettingsJson (json : String) : Settles s (s.setSettingsJson json) := by
  unfold setSettingsJson
  cases hjson : Settings.ofJson json with
  | error error => exact .inl ⟨error, rfl⟩
  | ok settings => exact settles_setSettings (settingsFits_of_ofJson hjson)

/-- Any request but the one to remove every cow settles; pending slots may be flushed before. -/
theorem Request.serve_cases (request : Request) (hsound : s.engine.herd.Sound)
    (hherd : ∀ cow ∈ s.engine.herd.cows, cow.Fits) :
    request = .clear ∨
      ∃ base, (base = s ∨ base = s.flush.2) ∧ Settles base (request.serve s) := by
  cases request with
  | upsert cow fits =>
    right
    exact ⟨s.flush.2, .inr rfl, (settles_upsert hsound hherd fits).mapError Refusal.herd⟩
  | upsertJson json =>
    right
    obtain ⟨base, hbase, hsettles⟩ := settles_upsertJson hsound hherd json
    exact ⟨base, hbase, hsettles.mapError Refusal.herd⟩
  | delete name =>
    right
    exact ⟨s.flush.2, .inr rfl, (settles_delete hsound hherd name).mapError Refusal.herd⟩
  | clear => exact .inl rfl
  | setSettings settings fits =>
    right
    exact ⟨s, .inl rfl, (settles_setSettings fits).mapError Refusal.settings⟩
  | setSettingsJson json =>
    right
    exact ⟨s, .inl rfl, (settles_setSettingsJson json).mapError Refusal.settings⟩

end Fodder.Steward
