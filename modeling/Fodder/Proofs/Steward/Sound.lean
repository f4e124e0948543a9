import Fodder.Proofs.Allocation
import Fodder.Proofs.Herd.Records
import Fodder.Proofs.Steward.Operation

/-!
# Engines stay sound

Whatever is stored, whichever calls fail and whatever is asked for, the herd in memory is sound, its
records are within their room and the schedule in force makes sense. Loading filters what it reads,
and every change is checked before it is made or taken back; that the store may lag behind plays no
part here.
-/
namespace Fodder

/-- The herd and the schedule that an engine works with make sense. -/
structure Engine.Sound (engine : Engine) : Prop where
  herd : engine.herd.Sound
  fits : ∀ cow ∈ engine.herd.cows, cow.Fits
  settings : engine.settings.Valid

/-! ## What programs yield -/

namespace Storage

variable {φ α β : Type}

/-- Whatever fails on the way, a result of the program has the property. -/
def Yields (op : Storage φ α) (property : α → Prop) : Prop :=
  ∀ device a, (op.on device).1 = .ok a → property a

variable {op : Storage φ α} {next : α → Storage φ β} {property : α → Prop} {other : β → Prop}

theorem yields_pure {a : α} (h : property a) : (pure a : Storage φ α).Yields property := by
  intro device b hb
  obtain rfl : a = b := by simpa using hb
  exact h

theorem Yields.bind (h : op.Yields property) (hnext : ∀ a, property a → (next a).Yields other) :
    (op >>= next).Yields other := by
  intro device b hb
  rw [on_bind] at hb
  split at hb
  · rename_i a after ha
    exact hnext a (h device a (by rw [ha])) after b hb
  · cases hb

theorem Yields.then (op : Storage φ α) (hnext : ∀ a, (next a).Yields other) :
    (op >>= next).Yields other := by
  have hany : op.Yields fun _ => True := fun _ _ _ => trivial
  exact hany.bind fun a _ => hnext a

theorem Yields.attempt (h : op.Yields property) :
    (attempt op).Yields fun answer => ∀ a, answer = .ok a → property a := by
  intro device answer hanswer a ha
  rw [on_attempt] at hanswer
  exact h device a ((Except.ok.inj hanswer).trans ha)

end Storage

namespace HerdStore

open Storage

variable {φ : Type} [FaultSource φ]

theorem readSlot_yields (index : Nat) : (readSlot index : Storage φ Cow).Yields Cow.Fits := by
  refine Yields.then _ fun blob device cow hcow => ?_
  rw [on_mk_pure, cowOf] at hcow
  cases hblob : Cow.ofBlob? blob with
  | none => simp [hblob] at hcow
  | some found =>
    obtain rfl : found = cow := by simpa [hblob] using hcow
    exact Cow.fits_of_ofBlob? hblob

theorem readable_yields (index slots : Nat) :
    (readable index slots : Storage φ (List Cow)).Yields fun cows => ∀ cow ∈ cows, cow.Fits := by
  induction slots generalizing index with
  | zero => exact yields_pure (by simp)
  | succ slots ih =>
    refine (readSlot_yields index).attempt.bind fun slot hslot => ?_
    refine (ih (index + 1)).bind fun rest hrest => yields_pure ?_
    intro cow hcow
    rcases List.mem_append.1 hcow with hcow | hcow
    · cases slot with
      | ok found =>
        obtain rfl : cow = found := by simpa [Except.toOption] using hcow
        exact hslot cow rfl
      | error error => simp [Except.toOption] at hcow
    · exact hrest cow hcow

theorem loadAll_yields :
    (loadAll : Storage φ (List Cow)).Yields fun cows => ∀ cow ∈ cows, cow.Fits := by
  refine Yields.then _ fun slots => (readable_yields 0 slots).bind fun cows hcows => ?_
  dsimp only
  split_ifs
  · exact Yields.then _ fun _ => Yields.then _ fun _ => yields_pure hcows
  · exact yields_pure hcows

end HerdStore

/-! ## Allocating -/

theorem Engine.Sound.recordFeed {engine : Engine} (h : engine.Sound) (slot : Nat) (name : String)
    (feed : Feed) : (engine.recordFeed slot name feed).Sound where
  herd := h.herd.recordFeed slot feed
  fits := Herd.fits_recordFeed h.fits slot feed
  settings := h.settings

theorem Engine.Sound.allocate {engine : Engine} (h : engine.Sound) (now : Nat) (tag : UInt16)
    (station : UInt8) : (engine.allocate now tag station).2.Sound := by
  rcases engine.allocate_cases now tag station with hsame | ⟨slot, cow, minute, -, -, hnoted⟩
  · rw [hsame]
    exact h
  · rw [hnoted]
    exact h.recordFeed slot cow.name ⟨station, minute⟩

/-! ## Starting and changing -/

namespace Steward

variable {φ : Type} [FaultSource φ] {engine : Engine} {ε : Type}

theorem startSettings_valid (stored : Except StorageError Settings) :
    (startSettings stored).Valid := by
  cases stored with
  | error error => exact Settings.valid_default
  | ok settings =>
    rw [startSettings]
    split_ifs with h
    · exact (Settings.flaw?_eq_none_iff settings).1 (by simpa using h)
    · exact Settings.valid_default

theorem sound_boot (device : Device φ) : (boot device).engine.Sound := by
  have hfits : ∀ cow ∈ (HerdStore.loadAll.on device).1.toOption.getD [], cow.Fits := by
    cases hloaded : (HerdStore.loadAll.on device).1 with
    | error error => simp [Except.toOption]
    | ok cows => exact HerdStore.loadAll_yields device cows hloaded
  have hsound : ∀ (settings : Settings) (recent : RecentFeeds) (pending : List Nat),
      settings.Valid → Engine.Sound
        { herd := Herd.ofRecords ((HerdStore.loadAll.on device).1.toOption.getD [])
          settings, recent, pending } := by
    intro settings recent pending hvalid
    refine ⟨Herd.sound_ofRecords _, ?_, hvalid⟩
    intro cow hcow
    exact hfits cow ((Herd.cows_ofRecords_sublist _).subset hcow)
  unfold boot
  dsimp only
  split_ifs
  · exact hsound _ _ _ (startSettings_valid _)
  · exact hsound _ _ _ (startSettings_valid _)

theorem Planned.sound_done {plan : Plan} (hplan : Planned engine plan) (h : engine.Sound) :
    plan.done.Sound where
  herd := hplan.herd_done h.herd
  fits := hplan.fits_done h.fits
  settings := by
    cases hplan with
    | schedule valid fits => exact valid
    | edit | create | deleteLast | delete => exact h.settings

/-- A plan that fails leaves the herd and the schedule as they were. -/
theorem Planned.sound_undone {plan : Plan} (hplan : Planned engine plan) (h : engine.Sound) :
    plan.undone.Sound := by
  cases hplan <;> exact ⟨h.herd, h.fits, h.settings⟩

theorem sound_clearing (h : engine.Sound) (former : Nat) : (clearing engine former).done.Sound where
  herd := Herd.sound_empty
  fits _ hcow := absurd hcow List.not_mem_nil
  settings := h.settings

theorem Plan.Ends.engine_cases {plan : Plan} {s : Steward φ} {outcome : Except ε Unit × Steward φ}
    (h : plan.Ends s outcome) :
    outcome.2.engine = plan.done ∨ outcome.2.engine = plan.undone := by
  rcases h with ⟨faults, rfl⟩ | ⟨made, failed, rest, cause, error, device, -, -, -, rfl⟩
  · exact .inl rfl
  · exact .inr rfl

theorem Settles.sound {base : Steward φ} {outcome : Except ε Unit × Steward φ}
    (hsettles : Settles base outcome) (h : base.engine.Sound) : outcome.2.engine.Sound := by
  rcases hsettles with ⟨error, rfl⟩ | ⟨plan, hplan, hends⟩
  · exact h
  · rcases hends.engine_cases with hdone | hundone
    · rw [hdone]
      exact hplan.sound_done h
    · rw [hundone]
      exact hplan.sound_undone h

/-! ## Running -/

variable {s : Steward φ}

theorem sound_flush (h : s.engine.Sound) : s.flush.2.engine.Sound := ⟨h.herd, h.fits, h.settings⟩

/-- No operation makes an engine unsound, whatever fails in its course. -/
theorem sound_apply (h : s.engine.Sound) (operation : Operation) :
    (operation.apply s).engine.Sound := by
  cases operation with
  | allocate now tag station => exact h.allocate now tag station
  | flush => exact sound_flush h
  | request asked =>
    rcases asked.serve_cases h.herd h.fits with rfl | ⟨base, rfl | rfl, hsettles⟩
    · obtain ⟨former, hends⟩ := clear_ends s
      have hcleared := sound_clearing h former
      rcases hends.engine_cases with hdone | hundone
      · exact hdone ▸ hcleared
      · exact hundone ▸ hcleared
    · exact hsettles.sound h
    · exact hsettles.sound (sound_flush h)
  | reboot => exact sound_boot s.device

theorem sound_run (h : s.engine.Sound) (operations : List Operation) :
    (s.run operations).engine.Sound :=
  run_induction (fun s => s.engine.Sound) (fun _ operation h => sound_apply h operation) h operations

/-- Whatever a device holds and whichever of its calls fail, from the first start on: an engine works
with a table of at most 100 records without flaws, in which every name and every collar stands once,
and with a schedule that passes its check. So a collar leads to the only cow that it can mean. -/
theorem checked_run_boot (device : Device φ) (operations : List Operation) :
    let engine := ((boot device).run operations).engine
    engine.herd.size ≤ 100 ∧ (∀ cow ∈ engine.herd.cows, cow.flaw? = none) ∧
      engine.herd.names.Nodup ∧ (engine.herd.cows.map Cow.collar).Nodup ∧
      engine.settings.check = .ok () ∧
      ∀ tag slot cow, engine.herd.wearer? tag = some (slot, cow) ↔
        engine.herd.cows[slot]? = some cow ∧ cow.collar = tag := by
  intro engine
  have hsound : engine.Sound := sound_run (sound_boot device) operations
  refine ⟨hsound.herd.size, ?_, hsound.herd.names, hsound.herd.collars, ?_, ?_⟩
  · intro cow hcow
    exact (Cow.flaw?_eq_none_iff cow).2 (hsound.herd.valid cow hcow)
  · have hflaw := (Settings.flaw?_eq_none_iff engine.settings).2 hsound.settings
    simp only [Settings.check, hflaw]
  · intro tag slot cow
    exact hsound.herd.wearer?_eq_some_iff

end Steward

end Fodder
