import Fodder.Proofs.Steward.Backed

/-!
# Nothing is lost to writes that fail

While only writes fail, every operation keeps memory backed, and with it every run of operations.
Once the device is sound again, a single flush leaves nothing pending, and a start from the device
finds the herd and the schedule of the running engine.
-/
namespace Fodder.Steward

open HerdStore Storage

section Runs

variable {φ : Type} [FaultSource φ] [OnlyWritesFail φ] {blank : Prop} {ε : Type}

theorem Plan.Ends.cases_of_onlyWritesFail {plan : Plan} {s : Steward φ}
    {outcome : Except ε Unit × Steward φ} (h : plan.Ends s outcome) :
    (outcome.1 = .ok () ∧ outcome.2.engine = plan.done ∧
        outcome.2.device.flash = s.device.flash.edited plan.script) ∨
      ∃ made failed rest error, plan.script = made ++ failed :: rest ∧ failed.call = .write ∧
        outcome.1 = .error error ∧ outcome.2.engine = plan.undone ∧
        outcome.2.device.flash = s.device.flash.edited made := by
  rcases h with
    ⟨faults, rfl⟩ | ⟨made, failed, rest, cause, error, device, hscript, ⟨faults, hfault⟩, hflash, rfl⟩
  · exact .inl ⟨rfl, rfl, rfl⟩
  · exact .inr ⟨made, failed, rest, error, hscript, OnlyWritesFail.call_eq_write hfault, rfl, rfl,
      hflash⟩

theorem Settles.backed {base : Steward φ} {outcome : Except ε Unit × Steward φ}
    (hsettles : Settles base outcome) (h : Backed blank base.engine base.device.flash) :
    Backed blank outcome.2.engine outcome.2.device.flash := by
  rcases hsettles with ⟨error, rfl⟩ | ⟨plan, hplan, hends⟩
  · exact h
  · rcases hends.cases_of_onlyWritesFail with
      ⟨-, hengine, hflash⟩ | ⟨made, failed, rest, error, hscript, hwrite, -, hengine, hflash⟩
    · rw [hengine, hflash]
      exact hplan.backed_done h
    · rw [hengine, hflash]
      exact hplan.backed_undone h hscript hwrite

/-- Whether an operation, if it is to remove every cow, does so. -/
def Operation.clearsIfAsked : Operation → Steward φ → Bool
  | request .clear, s => s.clear.1.isOk
  | _, _ => true

/-- Every request to remove all cows succeeds in the course of operations. -/
def clearsSucceed (s : Steward φ) : List Operation → Bool
  | [] => true
  | operation :: operations =>
    operation.clearsIfAsked s && clearsSucceed (operation.apply s) operations

theorem Backed.apply {s : Steward φ} (h : Backed blank s.engine s.device.flash)
    {operation : Operation} (hrunning : operation ≠ .reboot)
    (hclears : operation.clearsIfAsked s = true) :
    Backed blank (operation.apply s).engine (operation.apply s).device.flash := by
  cases operation with
  | allocate now tag station => exact h.allocate now tag station
  | flush => exact h.flush
  | request asked =>
    rcases asked.serve_cases h.sound h.fits with rfl | ⟨base, rfl | rfl, hsettles⟩
    · obtain ⟨former, hends⟩ := clear_ends s
      rcases hends.cases_of_onlyWritesFail with
        ⟨-, hengine, hflash⟩ | ⟨made, failed, rest, error, -, -, herror, -, -⟩
      · have hcleared := h.clearing former
        rw [← hengine, ← hflash] at hcleared
        exact hcleared
      · rw [Operation.clearsIfAsked, herror] at hclears
        cases hclears
    · exact hsettles.backed h
    · exact hsettles.backed h.flush
  | reboot => exact absurd rfl hrunning

theorem Backed.run {s : Steward φ} (h : Backed blank s.engine s.device.flash)
    {operations : List Operation} (hrunning : .reboot ∉ operations)
    (hclears : clearsSucceed s operations = true) :
    Backed blank (s.run operations).engine (s.run operations).device.flash := by
  induction operations generalizing s with
  | nil => exact h
  | cons operation operations ih =>
    rw [List.mem_cons, not_or] at hrunning
    rw [clearsSucceed, Bool.and_eq_true] at hclears
    exact ih (h.apply (Ne.symm hrunning.1) hclears.1) hrunning.2 hclears.2

end Runs

/-- The same steward on a device that other faults befall. -/
def withFaults {φ ψ : Type} (s : Steward φ) (faults : ψ) : Steward ψ :=
  ⟨s.engine, s.device.flash, faults, s.device.journal⟩

/-- However writes fail in a run, once the device is sound again a flush stores what the engine
has. -/
theorem restores_flush {φ : Type} [FaultSource φ] [OnlyWritesFail φ] (flash : Flash) (faults : φ)
    (operations : List Operation) (hrunning : .reboot ∉ operations)
    (hclears : clearsSucceed ((boot (Device.sound flash)).withFaults faults) operations = true) :
    let s := ((boot (Device.sound flash)).withFaults faults).run operations
    let flushed := (s.withFaults ()).flush.2
    flushed.engine.pending = [] ∧ Restores flushed.device.flash flushed.engine := by
  intro s flushed
  let start := (boot (Device.sound flash)).withFaults faults
  have hstart : Backed True start.engine start.device.flash := by
    have hboot : True ∨ ∃ slots, storedCount (Device.sound flash).flash = .ok slots := .inl trivial
    exact backed_boot hboot
  have hrun : Backed True s.engine s.device.flash := hstart.run hrunning hclears
  have hhealed : Backed True (s.withFaults ()).engine (s.withFaults ()).device.flash := hrun
  have hpending : flushed.engine.pending = [] := pending_flushSlots_sound hrun.fits _ _
  exact ⟨hpending, hhealed.flush.restores hpending⟩

/-- One of three stored cows is left out at the start. The first cow is not rewritten in time, and
her deletion fails between the moved cow and the count; a feed and a new cow follow. -/
theorem restores_flush_strayRecord :
    let clara : Cow := ⟨"Clara", "276000123456", 3, ⟨1082130432⟩, 1700000000, []⟩
    let fits : clara.Fits := ⟨by decide, by decide, by decide⟩
    let operations : List Operation :=
      [.flush, .request (.delete "Anna"), .allocate 1728057600 2 1, .request (.upsert clara fits)]
    let faults : WriteVerdicts :=
      ⟨[some .ioError, none, some .full, none, some .ioError, some .ioError, some .full]⟩
    let s := ((boot (Device.sound strayRecord)).withFaults faults).run operations
    let flushed := (s.withFaults ()).flush.2
    s.engine.herd.names = ["Anna", "Berta", "Clara"] ∧ s.engine.pending = [0, 1] ∧
      flushed.engine.pending = [] ∧ Restores flushed.device.flash flushed.engine := by
  refine ⟨by decide +kernel, by decide +kernel, ?_⟩
  exact restores_flush strayRecord _ _ (by simp) (by decide +kernel)

end Fodder.Steward
