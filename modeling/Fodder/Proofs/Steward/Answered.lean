import Fodder.Proofs.Herd.Names
import Fodder.Proofs.Steward.Sound

/-!
# What answers promise

A request that is answered without an error has done what it asks for and nothing else. One that is
answered with an error has changed nothing that can be seen: by then the store may have been written
in part, but herd, schedule and recent feeds are those from before. Only the request to remove every
cow is not taken back.
-/
namespace Fodder

namespace Engine

/-- Two engines show the same; they may differ in the slots that are still to be written. -/
structure Unmoved (before after : Engine) : Prop where
  herd : after.herd = before.herd
  settings : after.settings = before.settings
  recent : after.recent = before.recent

theorem Unmoved.refl (engine : Engine) : engine.Unmoved engine := ⟨rfl, rfl, rfl⟩

theorem Unmoved.trans {first second third : Engine} (h : first.Unmoved second)
    (h' : second.Unmoved third) : first.Unmoved third where
  herd := h'.herd.trans h.herd
  settings := h'.settings.trans h.settings
  recent := h'.recent.trans h.recent

/-- One cow was created or edited. -/
structure Gains (before : Engine) (cow : Cow) (after : Engine) : Prop where
  herd : before.herd.Binds cow after.herd
  settings : after.settings = before.settings
  recent : after.recent = RecentFeeds.ofHerd after.herd

/-- One cow was deleted. -/
structure Loses (before : Engine) (name : String) (after : Engine) : Prop where
  herd : before.herd.Unbinds name after.herd
  settings : after.settings = before.settings
  recent : after.recent = before.recent.forget name

end Engine

namespace Steward

/-- What a request asks for, of the engine before it and the one after it. -/
def Request.Fulfilled (before after : Engine) : Request → Prop
  | upsert cow _ => before.Gains cow after
  | upsertJson json => ∃ cow, Cow.ofJson json = .ok cow ∧ before.Gains cow after
  | delete name => before.Loses name after
  | clear => after = { settings := before.settings }
  | setSettings settings _ => after = { before with settings }
  | setSettingsJson json =>
    ∃ settings, Settings.ofJson json = .ok settings ∧ after = { before with settings }

variable {φ : Type} [FaultSource φ] {ε : Type} {s base : Steward φ}
  {outcome : Except ε Unit × Steward φ}

/-! ## Errors -/

theorem unmoved_flush (s : Steward φ) : s.engine.Unmoved s.flush.2.engine := ⟨rfl, rfl, rfl⟩

theorem Planned.unmoved {engine : Engine} {plan : Plan} (hplan : Planned engine plan) :
    engine.Unmoved plan.undone := by
  cases hplan with
  | edit | create | deleteLast | schedule => exact .refl engine
  -- The slot of the cow that was to move becomes pending, which does not show.
  | delete => exact ⟨rfl, rfl, rfl⟩

theorem Plan.Ends.engine_of_ok {plan : Plan} (h : plan.Ends s outcome) (hok : outcome.1 = .ok ()) :
    outcome.2.engine = plan.done := by
  rcases h with ⟨faults, rfl⟩ | ⟨made, failed, rest, cause, error, device, -, -, -, rfl⟩
  · rfl
  · cases hok

theorem Plan.Ends.engine_of_error {plan : Plan} (h : plan.Ends s outcome) {error : ε}
    (herror : outcome.1 = .error error) : outcome.2.engine = plan.undone := by
  rcases h with ⟨faults, rfl⟩ | ⟨made, failed, rest, cause, other, device, -, -, -, rfl⟩
  · cases herror
  · rfl

theorem Settles.unmoved (h : Settles base outcome) {error : ε} (herror : outcome.1 = .error error) :
    base.engine.Unmoved outcome.2.engine := by
  rcases h with ⟨refusal, rfl⟩ | ⟨plan, hplan, hends⟩
  · exact .refl base.engine
  · rw [hends.engine_of_error herror]
    exact hplan.unmoved

theorem Request.unmoved_of_error {request : Request} (h : s.engine.Sound) (hclear : request ≠ .clear)
    {error : Refusal} (herror : (request.serve s).1 = .error error) :
    s.engine.Unmoved (request.serve s).2.engine := by
  rcases request.serve_cases h.herd h.fits with rfl | ⟨base, rfl | rfl, hsettles⟩
  · exact absurd rfl hclear
  · exact hsettles.unmoved herror
  · exact (unmoved_flush s).trans (hsettles.unmoved herror)

/-! ## Successes -/

theorem eq_ok_of_mapError {answer : Except ε Unit} {blame : ε → Refusal}
    (h : answer.mapError blame = .ok ()) : answer = .ok () := by
  cases answer with
  | error error => cases h
  | ok done => rfl

theorem gains_of_upsert (h : s.engine.Sound) {cow : Cow} (hfits : cow.Fits)
    (hok : (s.upsert cow).1 = .ok ()) : s.engine.Gains cow (s.upsert cow).2.engine := by
  cases hupsert : s.flush.2.engine.herd.upsert cow with
  | error error =>
    rw [upsert_of_error hupsert] at hok
    cases hok
  | ok placed =>
    obtain ⟨plan, -, hends, hdone⟩ := upsert_ends h.herd h.fits hfits hupsert
    rw [hends.engine_of_ok hok, hdone]
    exact ⟨h.herd.binds_upsert hupsert, rfl, rfl⟩

theorem loses_of_delete (h : s.engine.Sound) {name : String} (hok : (s.delete name).1 = .ok ()) :
    s.engine.Loses name (s.delete name).2.engine := by
  cases hremove : s.flush.2.engine.herd.remove name with
  | error error =>
    obtain ⟨refusal, hrefused⟩ := delete_of_error hremove
    rw [hrefused] at hok
    cases hok
  | ok removed =>
    obtain ⟨plan, -, hends, hdone⟩ := delete_ends h.herd h.fits hremove
    rw [hends.engine_of_ok hok, hdone]
    exact ⟨h.herd.unbinds_remove hremove, rfl, rfl⟩

theorem engine_of_clear (hok : s.clear.1 = .ok ()) :
    s.clear.2.engine = { settings := s.engine.settings } := by
  obtain ⟨former, hends⟩ := clear_ends s
  exact hends.engine_of_ok hok

theorem engine_of_setSettings {settings : Settings} (hfits : settings.Fits)
    (hok : (s.setSettings settings).1 = .ok ()) :
    (s.setSettings settings).2.engine = { s.engine with settings } := by
  cases hflaw : settings.flaw? with
  | some flaw =>
    simp only [setSettings, Settings.check, hflaw] at hok
    cases hok
  | none =>
    have hvalid := (Settings.flaw?_eq_none_iff settings).1 hflaw
    exact (setSettings_ends hvalid hfits).engine_of_ok hok

theorem Request.fulfilled_of_ok {request : Request} (h : s.engine.Sound)
    (hok : (request.serve s).1 = .ok ()) :
    request.Fulfilled s.engine (request.serve s).2.engine := by
  cases request with
  | upsert cow fits => exact gains_of_upsert h fits (eq_ok_of_mapError hok)
  | upsertJson json =>
    have hok := eq_ok_of_mapError hok
    simp only [serve, Steward.upsertJson] at hok ⊢
    cases hjson : Cow.ofJson json with
    | error error =>
      rw [hjson] at hok
      cases hok
    | ok cow =>
      rw [hjson] at hok
      exact ⟨cow, hjson, gains_of_upsert h (fits_of_ofJson hjson) hok⟩
  | delete name => exact loses_of_delete h (eq_ok_of_mapError hok)
  | clear => exact engine_of_clear (eq_ok_of_mapError hok)
  | setSettings settings fits => exact engine_of_setSettings fits (eq_ok_of_mapError hok)
  | setSettingsJson json =>
    have hok := eq_ok_of_mapError hok
    simp only [serve, Steward.setSettingsJson] at hok ⊢
    cases hjson : Settings.ofJson json with
    | error error =>
      rw [hjson] at hok
      cases hok
    | ok settings =>
      rw [hjson] at hok
      exact ⟨settings, hjson, engine_of_setSettings (settingsFits_of_ofJson hjson) hok⟩

/-- Whatever a device holds, whatever was done since its first start and whichever of its calls
fail: a request that is answered without an error is fulfilled, and one that is answered with an
error leaves herd, schedule and recent feeds as they were, unless it was to remove every cow. -/
theorem answered_run_boot (device : Device φ) (operations : List Operation) (request : Request) :
    let before := (boot device).run operations
    let answered := request.serve before
    (answered.1 = .ok () → request.Fulfilled before.engine answered.2.engine) ∧
      (request ≠ .clear → ∀ error, answered.1 = .error error →
        before.engine.Unmoved answered.2.engine) := by
  intro before answered
  have hsound : before.engine.Sound := sound_run (sound_boot device) operations
  constructor
  · exact Request.fulfilled_of_ok hsound
  · intro hclear error herror
    exact Request.unmoved_of_error hsound hclear herror

end Steward

end Fodder
