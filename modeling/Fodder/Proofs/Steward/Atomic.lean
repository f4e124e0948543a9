import Fodder.Proofs.Steward.Durable

/-!
# Requests are all or nothing

With nothing pending, a loss of power between any two calls of a request leaves contents from which
a start finds what was there before the request or what the request leads to. Either the script has
not come to its point yet, or the rest of it only tidies up: a cow saved behind the table is not
counted, and a moved cow that is still in its old slot as well is left out as a duplicate.
-/
namespace Fodder.Steward

open HerdStore Storage

/-- Every slot below the count can be read. -/
def Legible (flash : Flash) : Prop :=
  ∃ slots, storedCount flash = .ok slots ∧ ∀ i < slots, (storedCow? flash i).isSome

/-- A start finds the herd and the schedule of the engine, and no slot that it cannot read. -/
def Intact (flash : Flash) (engine : Engine) : Prop := Restores flash engine ∧ Legible flash

variable {engine : Engine} {flash : Flash} {cows : List Cow}

theorem legible_of_holds (h : Holds flash cows []) : Legible flash := by
  refine ⟨cows.length, h.count, ?_⟩
  intro i hi
  rw [h.slots i hi List.not_mem_nil, List.getElem?_eq_getElem hi]
  rfl

/-- With a readable count and nothing pending, the store holds the herd. -/
theorem Backed.holds_of_pending (h : Backed False engine flash) (hpending : engine.pending = []) :
    Holds flash engine.herd.cows [] := by
  rcases h.stored with hholds | ⟨hfalse, -⟩
  · rwa [hpending] at hholds
  · exact hfalse.elim

theorem Backed.intact (h : Backed False engine flash) (hpending : engine.pending = []) :
    Intact flash engine :=
  ⟨h.restores hpending, legible_of_holds (h.holds_of_pending hpending)⟩

/-! ## First parts of a script -/

/-- A moved cow in both slots is found once, in the one that it moved to. -/
theorem intact_moved (h : Backed False engine flash) (hpending : engine.pending = []) {index : Nat}
    {last : Cow} (hindex : index < engine.herd.size - 1)
    (hlast : engine.herd.cows[engine.herd.size - 1]? = some last) (recent : RecentFeeds) :
    Intact (flash.edit (saveEdit last index))
      { engine with herd := engine.herd.fillFromEnd index, recent } := by
  have hfits := h.fits last (List.mem_of_getElem? hlast)
  have hholds : Holds _ _ [] := (h.holds_of_pending hpending).save hfits index
  have hsettings := (congrArg startSettings (storedSettings_saveEdit flash last index)).trans h.settings
  refine ⟨⟨?_, ?_⟩, legible_of_holds hholds⟩
  · rw [boot_herd, Device.flash_sound, found_of_holds hholds]
    exact Herd.ofRecords_set_last h.sound hlast hindex
  · rw [boot_settings]
    exact hsettings

/-- However many edits of a plan are made, a start finds what was there or what the plan leads to. -/
theorem Planned.intact_take {plan : Plan} (hplan : Planned engine plan)
    (h : Backed False engine flash) (hpending : engine.pending = []) (n : Nat) :
    Intact (flash.edited (plan.script.take n)) engine ∨
      Intact (flash.edited (plan.script.take n)) plan.done := by
  cases n with
  | zero => exact .inl (h.intact hpending)
  | succ n =>
    cases hplan with
    | edit recent here fits sound =>
      right
      rw [List.take_of_length_le (by simp)]
      exact ((Planned.edit recent here fits sound).backed_done h).intact hpending
    | create recent fits sound =>
      cases n with
      | zero => exact .inl ((h.save_unseen fits (.inr le_rfl)).intact hpending)
      | succ n =>
        right
        rw [List.take_succ_cons, take_truncation]
        exact ((Planned.create recent fits sound).backed_done h).intact hpending
    | deleteLast recent here =>
      right
      rw [take_truncation]
      exact ((Planned.deleteLast recent here).backed_done h).intact hpending
    | delete recent here moved =>
      right
      cases n with
      | zero => exact intact_moved h hpending here moved recent
      | succ n =>
        rw [List.take_succ_cons, take_truncation]
        exact ((Planned.delete recent here moved).backed_done h).intact hpending
    | schedule valid fits =>
      right
      have hplan : Planned engine _ := .schedule valid fits
      rw [List.take_of_length_le (by simp)]
      exact (hplan.backed_done h).intact hpending

theorem intact_take_clearing (h : Backed False engine flash) (hpending : engine.pending = [])
    (former n : Nat) :
    Intact (flash.edited ((clearing engine former).script.take n)) engine ∨
      Intact (flash.edited ((clearing engine former).script.take n)) (clearing engine former).done := by
  cases n with
  | zero => exact .inl (h.intact hpending)
  | succ n =>
    right
    rw [clearing, take_truncation]
    exact (h.clearing (0 + min n (former - 0))).intact rfl

/-! ## Runs on a sound device -/

section Runs

variable {s : Steward Unit} {ε : Type}

theorem Plan.Ends.on_sound {plan : Plan} {outcome : Except ε Unit × Steward Unit}
    (h : plan.Ends s outcome) : outcome = (.ok (), ⟨plan.done, s.device.after plan.script ()⟩) := by
  rcases h with
    ⟨faults, hdone⟩ | ⟨made, failed, rest, cause, error, device, -, ⟨faults, hfault⟩, -⟩
  · exact hdone
  · cases hfault

theorem clearsIfAsked_sound (operation : Operation) (s : Steward Unit) :
    operation.clearsIfAsked s = true := by
  unfold Operation.clearsIfAsked
  split
  · obtain ⟨former, hends⟩ := clear_ends s
    rw [hends.on_sound]
    rfl
  · rfl

theorem Backed.apply_sound (h : Backed False s.engine s.device.flash) (operation : Operation) :
    Backed False (operation.apply s).engine (operation.apply s).device.flash := by
  by_cases hreboot : operation = .reboot
  · subst hreboot
    rcases h.stored with hholds | ⟨hfalse, -⟩
    · exact backed_boot (.inr ⟨_, hholds.count⟩)
    · exact hfalse.elim
  · exact h.apply hreboot (clearsIfAsked_sound operation s)

theorem Backed.run_sound (h : Backed False s.engine s.device.flash) (operations : List Operation) :
    Backed False (s.run operations).engine (s.run operations).device.flash :=
  run_induction (fun s : Steward Unit => Backed False s.engine s.device.flash)
    (fun _ operation h => h.apply_sound operation) h operations

theorem flush_of_pending {φ : Type} [FaultSource φ] {s : Steward φ} (hpending : s.engine.pending = []) :
    s.flush.2 = s := by
  obtain ⟨⟨herd, settings, recent, pending⟩, device⟩ := s
  obtain rfl : pending = [] := hpending
  rfl

/-- What a request leaves at each cut of its calls. -/
theorem Request.intact_cut (h : Backed False s.engine s.device.flash)
    (hpending : s.engine.pending = []) (request : Request) (n : Nat) :
    Intact (s.device.cut (request.serve s).2.device n) s.engine ∨
      Intact (s.device.cut (request.serve s).2.device n) (request.serve s).2.engine := by
  have hsettles : request = .clear ∨ Settles s (request.serve s) := by
    rcases request.serve_cases h.sound h.fits with hclear | ⟨base, rfl | rfl, hsettles⟩
    · exact .inl hclear
    · exact .inr hsettles
    · rw [flush_of_pending hpending] at hsettles
      exact .inr hsettles
  rcases hsettles with rfl | ⟨error, hrefused⟩ | ⟨plan, hplan, hends⟩
  · obtain ⟨former, hends⟩ := clear_ends s
    have hserve : (Request.clear.serve s).2 = s.clear.2 := rfl
    rw [hserve, hends.on_sound, Device.cut_after]
    exact intact_take_clearing h hpending former n
  · left
    rw [hrefused, Device.cut_self]
    exact h.intact hpending
  · rw [hends.on_sound, Device.cut_after]
    exact hplan.intact_take h hpending n

end Runs

/-- From any contents with a count that is absent or readable, after any run of a sound device that
leaves nothing pending, and at any cut of a request. -/
theorem intact_cut_of_run {flash : Flash} {slots : Nat} (hcount : storedCount flash = .ok slots)
    (operations : List Operation)
    (hpending : ((boot (Device.sound flash)).run operations).engine.pending = [])
    (request : Request) (n : Nat) :
    let before := (boot (Device.sound flash)).run operations
    let after := (request.serve before).2
    let left := before.device.cut after.device n
    (Restores left before.engine ∨ Restores left after.engine) ∧ Legible left := by
  intro before after left
  have hstart :
      Backed False (boot (Device.sound flash)).engine (boot (Device.sound flash)).device.flash :=
    backed_boot (.inr ⟨slots, hcount⟩)
  rcases request.intact_cut (hstart.run_sound operations) hpending n with hbefore | hafter
  · exact ⟨.inl hbefore.1, hbefore.2⟩
  · exact ⟨.inr hafter.1, hafter.2⟩

/-- A deletion is cut after the last cow was saved in the first place. -/
theorem intact_cut_strayRecord :
    let before := (boot (Device.sound strayRecord)).run [.flush]
    let after := ((Request.delete "Anna").serve before).2
    let left := before.device.cut after.device 1
    storedCount strayRecord = .ok 3 ∧ before.engine.pending = [] ∧
      before.engine.herd.names = ["Anna", "Berta"] ∧ after.engine.herd.names = ["Berta"] ∧
      (Restores left before.engine ∨ Restores left after.engine) ∧ Legible left := by
  have hcount : storedCount strayRecord = .ok 3 := by decide +kernel
  have hpending : ((boot (Device.sound strayRecord)).run [.flush]).engine.pending = [] := by
    decide +kernel
  exact ⟨hcount, hpending, by decide +kernel, by decide +kernel,
    intact_cut_of_run hcount [.flush] hpending (.delete "Anna") 1⟩

end Fodder.Steward
