import Fodder.Proofs.Steward.Answered
import Fodder.Proofs.Steward.Memory
import Fodder.Proofs.Steward.Spared

/-!
# Deletions that fail

In memory a deletion that fails is taken back as a whole. In the store it is taken back as far as the
slot of the cow that was to move, which becomes pending; the count is not written again. So it matters
which call failed. After a write that fails the count is still that of the whole table, and one flush
puts the store right. After an erasure that fails the lower count is already written: however sound the
device is from then on, a start finds all cows but the last one of the table.
-/
namespace Fodder

/-- The last call that was journalled is an erasure that failed. -/
def Device.failedErasing {φ : Type} (device : Device φ) : Bool :=
  device.journal.head?.any fun entry => entry.failed && entry.change = .erase

/-! ## Programs broken off -/

namespace Storage

variable {φ : Type}

/-- A program that ends in an error has made the edits before the one that failed, which stands last
in the journal. -/
def BreaksOff (op : Storage φ Unit) (edits : List Edit) (device : Device φ) : Prop :=
  ∀ error after, op.on device = (.error error, after) → ∃ made failed rest,
    edits = made ++ failed :: rest ∧ after.flash = device.flash.edited made ∧
      after.journal.head? = some (failed.entry true)

variable {op next : Storage φ Unit} {edits more : List Edit} {device : Device φ}

theorem breaksOff_pure (device : Device φ) : (pure () : Storage φ Unit).BreaksOff [] device := by
  intro error after herror
  cases herror

variable [FaultSource φ]

theorem make_breaksOff {edit : Edit} (hfits : edit.Fits) (device : Device φ) :
    (make edit).BreaksOff [edit] device := by
  intro error after herror
  rw [make_on hfits] at herror
  split at herror
  · obtain ⟨-, rfl⟩ := Prod.mk.inj herror
    exact ⟨[], edit, [], rfl, rfl, rfl⟩
  · cases herror

theorem BreaksOff.bind (h : op.BreaksOff edits device) (hcarries : op.Carries edits device)
    (hnext : ∀ faults, op.on device = (.ok (), device.after edits faults) →
      next.BreaksOff more (device.after edits faults)) :
    (op >>= fun _ => next).BreaksOff (edits ++ more) device := by
  intro error after herror
  rw [on_bind] at herror
  rcases hcarries with ⟨faults, hdone⟩ | ⟨-, -, -, cause, stopped, -, -, hfailed, -⟩
  · rw [hdone] at herror
    obtain ⟨made, failed, rest, rfl, hflash, hjournal⟩ := hnext faults hdone error after herror
    refine ⟨edits ++ made, failed, rest, by simp, ?_, hjournal⟩
    rw [hflash, Flash.edited_append]
    rfl
  · obtain ⟨made, failed, rest, rfl, hflash, hjournal⟩ := h cause stopped hfailed
    rw [hfailed] at herror
    obtain ⟨-, rfl⟩ := Prod.mk.inj herror
    exact ⟨made, failed, rest ++ more, by simp, hflash, hjournal⟩

end Storage

namespace HerdStore

open Storage

variable {φ : Type} [FaultSource φ] (device : Device φ)

theorem save_breaksOff {cow : Cow} (h : cow.Fits) (index : Nat) :
    (save cow index).BreaksOff [saveEdit cow index] device :=
  make_breaksOff (saveEdit_fits h index) device

theorem eraseSlots_breaksOff (index slots : Nat) :
    (eraseSlots index slots).BreaksOff ((List.range' index slots).map eraseEdit) device := by
  induction slots generalizing index device with
  | zero => exact breaksOff_pure device
  | succ slots ih =>
    have hfits := eraseEdit_fits index
    exact (make_breaksOff hfits device).bind (make_carries hfits device)
      fun faults _ => ih _ (index + 1)

theorem truncate_breaksOff {count : Nat} (h : count < 65536) (former : Nat) :
    (truncate count former).BreaksOff (truncation count former) device := by
  have hfits := countEdit_fits count
  rw [truncate, writeCount_eq h]
  exact (make_breaksOff hfits device).bind (make_carries hfits device)
    fun faults _ => eraseSlots_breaksOff _ _ _

theorem resize_breaksOff {count : Nat} (h : count < 65536) :
    ∃ former, (resize count).BreaksOff (truncation count former) device := by
  obtain ⟨former, faults, hresize⟩ := resize_on device count
  refine ⟨former, ?_⟩
  rw [BreaksOff, hresize]
  exact truncate_breaksOff { device with faults } h former

theorem then_resize_breaksOff {op : Storage φ Unit} {edits : List Edit}
    (h : op.BreaksOff edits device) (hcarries : op.Carries edits device) {count : Nat}
    (hlt : count < 65536) :
    ∃ former, (op >>= fun _ => resize count).BreaksOff (edits ++ truncation count former) device := by
  obtain ⟨former, hresize⟩ := exists_of_done device fun after => resize_breaksOff after hlt
  exact ⟨former, h.bind hcarries hresize⟩

end HerdStore

/-! ## Deletions broken off -/

namespace Steward

open HerdStore Storage

variable {φ : Type} {s : Steward φ}

/-- A call of a plan failed, and the steward went back. -/
structure Plan.BrokenOff (plan : Plan) (before after : Steward φ) (made : List Edit) (failed : Edit)
    (rest : List Edit) : Prop where
  script : plan.script = made ++ failed :: rest
  engine : after.engine = plan.undone
  flash : after.device.flash = before.device.flash.edited made
  journal : after.device.journal.head? = some (failed.entry true)

theorem Plan.BrokenOff.failedErasing_eq {plan : Plan} {before after : Steward φ} {made rest : List Edit}
    {failed : Edit} (h : plan.BrokenOff before after made failed rest) :
    after.device.failedErasing = decide (failed.change = .erase) := by
  rw [Device.failedErasing, h.journal]
  rfl

theorem carryOut_brokenOff {ε : Type} {write : Storage φ Unit} {script : List Edit}
    (h : write.BreaksOff script s.device) {done undone : Engine} {blame : StorageError → ε} {error : ε}
    (herror : (carryOut write done undone blame s).1 = .error error) :
    ∃ made failed rest, Plan.BrokenOff ⟨script, done, undone⟩ s
      (carryOut write done undone blame s).2 made failed rest := by
  unfold carryOut at herror ⊢
  cases hwrite : write.on s.device with
  | mk answer device =>
    rw [hwrite] at herror
    cases answer with
    | ok done => cases herror
    | error cause =>
      obtain ⟨made, failed, rest, hscript, hflash, hjournal⟩ := h cause device hwrite
      exact ⟨made, failed, rest, hscript, rfl, hflash, hjournal⟩

variable [FaultSource φ]

/-- A deletion that fails in the store was broken off. -/
theorem delete_brokenOff (hsound : s.engine.herd.Sound)
    (hherd : ∀ cow ∈ s.engine.herd.cows, cow.Fits) {name : String} {error : StorageError}
    (herror : (s.delete name).1 = .error (.storage error)) :
    ∃ plan made failed rest, Planned s.flush.2.engine plan ∧
      plan.done.herd.size < s.engine.herd.size ∧
      plan.BrokenOff s.flush.2 (s.delete name).2 made failed rest := by
  cases hremove : s.flush.2.engine.herd.remove name with
  | error refusal =>
    have hget := Herd.get?_eq_none_iff.2 (Herd.not_mem_names_of_remove hremove)
    simp only [delete, hget] at herror
    cases herror
  | ok removed =>
    obtain ⟨rest, vacated⟩ := removed
    have hlt : s.flush.2.engine.herd.size - 1 < 65536 :=
      (Nat.sub_le _ _).trans_lt (hsound.size.trans_lt (by decide))
    have hsize : ∀ {last : Cow} (index : Nat),
        s.flush.2.engine.herd.cows[s.flush.2.engine.herd.size - 1]? = some last →
          (s.flush.2.engine.herd.fillFromEnd index).size < s.engine.herd.size := by
      intro last index hlast
      obtain ⟨hend, -⟩ := List.getElem?_eq_some_iff.1 hlast
      rw [Herd.size_fillFromEnd]
      exact hend
    obtain ⟨last, hlast, -, hdelete⟩ | ⟨index, last, hfront, hmoved, -, hdelete⟩ :=
      delete_cases hremove
    · obtain ⟨former, hbreaks⟩ := resize_breaksOff s.flush.2.device hlt
      rw [hdelete] at herror ⊢
      obtain ⟨made, failed, rest, hbroken⟩ := carryOut_brokenOff hbreaks herror
      exact ⟨_, made, failed, rest, .deleteLast _ hlast, hsize _ hlast, hbroken⟩
    · have hfits := hherd last (List.mem_of_getElem? hmoved)
      obtain ⟨former, hbreaks⟩ := then_resize_breaksOff s.flush.2.device
        (save_breaksOff s.flush.2.device hfits index) (save_carries s.flush.2.device hfits index) hlt
      rw [hdelete] at herror ⊢
      obtain ⟨made, failed, rest, hbroken⟩ := carryOut_brokenOff hbreaks herror
      exact ⟨_, made, failed, rest, .delete _ hfront hmoved, hsize _ hmoved, hbroken⟩

/-! ## What is left in the store -/

variable {engine : Engine} {flash : Flash} {made rest : List Edit} {failed : Edit}

/-- An erasure can only fail when the count is written. -/
theorem truncation_erasing {count former : Nat}
    (hscript : truncation count former = made ++ failed :: rest) (herase : failed.change = .erase) :
    ∃ former', made = truncation count former' := by
  rcases truncation_eq_append hscript with rfl | ⟨hmade, -⟩
  · obtain ⟨rfl, -⟩ := List.cons.inj hscript
    cases herase
  · exact hmade

/-- After an erasure that failed the store holds the front of the table. -/
theorem Planned.holds_erasing {plan : Plan} (hplan : Planned engine plan)
    (hless : plan.done.herd.size < engine.herd.size) (h : Backed True engine flash)
    (hpending : engine.pending = []) (hscript : plan.script = made ++ failed :: rest)
    (herase : failed.change = .erase) :
    Holds (flash.edited made) (engine.herd.cows.take (engine.herd.size - 1)) plan.undone.pending ∧
      ∀ slot ∈ plan.undone.pending, slot < engine.herd.size - 1 := by
  have hsize : engine.herd.size - 1 ≤ engine.herd.cows.length := Nat.sub_le _ _
  -- Of all plans only the two deletions make the table shorter.
  cases hplan with
  | edit recent here fits sound =>
    simp only [Herd.size, Herd.putBack, List.length_set, lt_self_iff_false] at hless
  | create recent fits sound =>
    simp only [Herd.size, List.length_append] at hless
    omega
  | deleteLast recent here =>
    obtain ⟨former', rfl⟩ := truncation_erasing hscript herase
    obtain ⟨hlt, -⟩ := List.getElem?_eq_some_iff.1 here
    refine ⟨(h.holds hlt).truncate hsize former', ?_⟩
    simp [hpending]
  | @delete index last former recent here moved =>
    obtain ⟨hlt, -⟩ := List.getElem?_eq_some_iff.1 moved
    cases made with
    | nil =>
      obtain ⟨rfl, -⟩ := List.cons.inj hscript
      cases herase
    | cons saved made =>
      obtain ⟨rfl, hrest⟩ := List.cons.inj hscript
      obtain ⟨former', rfl⟩ := truncation_erasing hrest herase
      -- The slot that the last cow was saved in is pending, so it may hold anything.
      have hseen : index ∈ (engine.markPending index).pending := Engine.mem_insertSlot.2 (.inl rfl)
      have hsaved := (h.markPending index).save_unseen (h.fits last (List.mem_of_getElem? moved))
        (.inl hseen)
      refine ⟨(hsaved.holds hlt).truncate hsize former', ?_⟩
      simp only [Engine.markPending, hpending, Engine.insertSlot, List.mem_singleton, forall_eq]
      exact here
  | schedule valid fits => exact absurd hless (Nat.lt_irrefl _)

/-! ## Healing -/

/-- Only the cows in the slots matter. -/
theorem flushSlots_congr {herd other : Herd} {slots : List Nat}
    (h : ∀ slot ∈ slots, herd.at? slot = other.at? slot) (device : Device φ) :
    flushSlots herd slots device = flushSlots other slots device := by
  induction slots generalizing device with
  | nil => rfl
  | cons slot slots ih =>
    obtain ⟨hslot, hslots⟩ := List.forall_mem_cons.1 h
    rw [flushSlots, flushSlots, hslot]
    simp only [ih hslots]

section Sound

variable {s : Steward Unit}

/-- Once nothing fails, a flush stores what memory has. -/
theorem Backed.loaded_flush (h : Backed True s.engine s.device.flash) :
    loaded s.flush.2.device.flash = s.engine.herd := by
  have hpending : s.flush.2.engine.pending = [] := pending_flushSlots_sound h.fits _ _
  rw [loaded_eq, h.flush.found_eq hpending]
  exact Herd.ofRecords_of_sound h.sound

/-- A flush puts slots right, but not the count. -/
theorem loaded_flush_of_take (hsound : s.engine.herd.Sound)
    (hfits : ∀ cow ∈ s.engine.herd.cows, cow.Fits) {size : Nat}
    (hslots : ∀ slot ∈ s.engine.pending, slot < size)
    (h : Holds s.device.flash (s.engine.herd.cows.take size) s.engine.pending) :
    loaded s.flush.2.device.flash = ⟨s.engine.herd.cows.take size⟩ := by
  -- The flush does the same as one of the shorter table, which the store holds but for pending slots.
  let front : Herd := ⟨s.engine.herd.cows.take size⟩
  have hfront : ∀ cow ∈ front.cows, cow.Fits := fun cow hcow => hfits cow (List.mem_of_mem_take hcow)
  have hsame : flushSlots s.engine.herd s.engine.pending s.device =
      flushSlots front s.engine.pending s.device :=
    flushSlots_congr (fun slot hslot => (List.getElem?_take_of_lt (hslots slot hslot)).symm) s.device
  have hflush : s.flush.2.device = (flushSlots front s.engine.pending s.device).device := by
    rw [flush, hsame]
  have hholds : Holds s.device.flash front.cows (s.engine.pending ++ []) := by
    rwa [List.append_nil]
  have hflushed := holds_flushSlots hfront hholds
  rw [pending_flushSlots_sound hfront] at hflushed
  rw [hflush, loaded_of_holds hflushed]
  exact Herd.ofRecords_of_sound (hsound.take size)

end Sound

/-! ## What comes of a failed deletion -/

theorem call_eq_write_of_change {edit : Edit} (h : edit.change ≠ .erase) : edit.call = .write := by
  obtain ⟨space, key, change⟩ := edit
  cases change with
  | write blob => rfl
  | erase => exact absurd rfl h

/-- Either the whole table is found again or all but its last cow. -/
theorem loaded_healed_cases {s : Steward φ} (h : Backed True s.engine s.device.flash)
    (hpending : s.engine.pending = []) {name : String} {error : StorageError}
    (herror : (s.delete name).1 = .error (.storage error)) :
    let failed := (s.delete name).2
    let healed := (failed.withFaults ()).flush.2
    failed.device.failedErasing = false ∧ loaded healed.device.flash = s.engine.herd ∨
      failed.device.failedErasing = true ∧ 0 < s.engine.herd.size ∧
        loaded healed.device.flash = ⟨s.engine.herd.cows.take (s.engine.herd.size - 1)⟩ := by
  intro after healed
  obtain ⟨plan, made, failed, rest, hplan, hless, hbroken⟩ := delete_brokenOff h.sound h.fits herror
  rw [flush_of_pending hpending] at hplan hbroken
  have hherd : after.engine.herd = s.engine.herd := by
    rw [hbroken.engine]
    exact hplan.unmoved.herd
  rw [hbroken.failedErasing_eq]
  by_cases herase : failed.change = .erase
  · right
    obtain ⟨hholds, hslots⟩ := hplan.holds_erasing hless h hpending hbroken.script herase
    rw [← hbroken.flash, ← hbroken.engine, ← hherd] at hholds
    rw [← hbroken.engine, ← hherd] at hslots
    refine ⟨decide_eq_true herase, Nat.zero_lt_of_lt hless, ?_⟩
    rw [← hherd]
    refine loaded_flush_of_take ?_ ?_ hslots hholds
    · exact hherd ▸ h.sound
    · exact hherd ▸ h.fits
  · left
    have hundone := hplan.backed_undone h hbroken.script (call_eq_write_of_change herase)
    rw [← hbroken.flash, ← hbroken.engine] at hundone
    have hhealed : Backed True (after.withFaults ()).engine (after.withFaults ()).device.flash := hundone
    exact ⟨decide_eq_false herase, hhealed.loaded_flush.trans hherd⟩

/-- A deletion that fails in the store leaves memory as it was, whatever fails in its course. When the
device is sound again and nothing is pending any more, a start finds the same herd exactly if the call
that failed was not an erasure; otherwise the last cow of the table is missing. -/
theorem delete_undone_iff (flash : Flash) (operations : List Operation)
    (hpending : ((boot (Device.sound flash)).run operations).engine.pending = []) (faults : φ)
    (name : String) {error : StorageError}
    (herror : ((((boot (Device.sound flash)).run operations).withFaults faults).delete name).1 =
      .error (.storage error)) :
    let before := (boot (Device.sound flash)).run operations
    let failed := ((before.withFaults faults).delete name).2
    let healed := (failed.withFaults ()).flush.2
    before.engine.Unmoved failed.engine ∧ healed.engine.pending = [] ∧
      (loaded healed.device.flash = before.engine.herd ↔ failed.device.failedErasing = false) ∧
      (failed.device.failedErasing = true →
        loaded healed.device.flash = ⟨before.engine.herd.cows.dropLast⟩) := by
  intro before failed healed
  have hstart :
      Backed True (boot (Device.sound flash)).engine (boot (Device.sound flash)).device.flash :=
    backed_boot (.inl trivial)
  have hbacked :
      Backed True (before.withFaults faults).engine (before.withFaults faults).device.flash :=
    hstart.run_faultless operations
  have hunmoved : before.engine.Unmoved failed.engine :=
    (unmoved_flush (before.withFaults faults)).trans
      ((settles_delete hbacked.sound hbacked.fits name).unmoved herror)
  have hfits : ∀ cow ∈ (failed.withFaults ()).engine.herd.cows, cow.Fits := by
    intro cow hcow
    exact hbacked.fits cow (hunmoved.herd ▸ hcow)
  refine ⟨hunmoved, pending_flushSlots_sound hfits _ _, ?_⟩
  rcases loaded_healed_cases hbacked hpending herror with ⟨hwrite, hwhole⟩ | ⟨herase, hpos, hfront⟩
  · refine ⟨iff_of_true hwhole hwrite, fun herase => ?_⟩
    exact absurd (hwrite.symm.trans herase) Bool.false_ne_true
  · have hdropped : loaded healed.device.flash = ⟨before.engine.herd.cows.dropLast⟩ := by
      rw [List.dropLast_eq_take]
      exact hfront
    refine ⟨iff_of_false (fun hsame => ?_) fun hwrite => ?_, fun _ => hdropped⟩
    · have hsize := congrArg Herd.size (hdropped.symm.trans hsame)
      rw [Herd.size, List.length_dropLast] at hsize
      exact absurd hsize (Nat.sub_lt hpos Nat.one_pos).ne
    · exact Bool.false_ne_true (hwrite.symm.trans herase)

/-- Three cows are created, none of which has eaten yet. -/
def threeCows : List Operation :=
  let create (name : String) (collar : UInt16) (fits : (Herd.calf name collar).Fits) :=
    Operation.request (.upsert (Herd.calf name collar) fits)
  [create "Anna" 1 (Herd.calf_fits (by decide) 1), create "Berta" 2 (Herd.calf_fits (by decide) 2),
    create "Clara" 3 (Herd.calf_fits (by decide) 3)]

/-- The slot behind a table of two cows cannot be erased. -/
def stuckSlot : FaultPlan := ⟨[{ call := .erase, key := some "c2", error := .ioError }]⟩

theorem delete_undone_iff_stuckSlot :
    let before := (boot (Device.sound {})).run threeCows
    let failed := ((before.withFaults stuckSlot).delete "Anna").2
    let healed := (failed.withFaults ()).flush.2
    before.engine.pending = [] ∧
      ((before.withFaults stuckSlot).delete "Anna").1 = .error (.storage .ioError) ∧
      failed.device.failedErasing = true ∧ before.engine.Unmoved failed.engine ∧
      healed.engine.pending = [] ∧
      loaded healed.device.flash = ⟨before.engine.herd.cows.dropLast⟩ := by
  have hpending : ((boot (Device.sound {})).run threeCows).engine.pending = [] := by decide +kernel
  have herror : ((((boot (Device.sound {})).run threeCows).withFaults stuckSlot).delete "Anna").1 =
      .error (.storage .ioError) := by
    decide +kernel
  have herase : ((((boot (Device.sound {})).run threeCows).withFaults stuckSlot).delete
      "Anna").2.device.failedErasing = true := by
    decide +kernel
  have hundone := delete_undone_iff {} threeCows hpending stuckSlot "Anna" herror
  exact ⟨hpending, herror, herase, hundone.1, hundone.2.1, hundone.2.2.2 herase⟩

/-- Anna was to be deleted, and she is back; Clara, who was only to move into her place, is lost. -/
theorem not_undone_stuckSlot :
    let before := (boot (Device.sound {})).run threeCows
    let outcome := (before.withFaults stuckSlot).delete "Anna"
    let healed := (outcome.2.withFaults ()).flush.2
    before.engine.pending = [] ∧ outcome.1 = .error (.storage .ioError) ∧
      outcome.2.engine.herd.names = ["Anna", "Berta", "Clara"] ∧ healed.engine.pending = [] ∧
      (loaded healed.device.flash).names = ["Anna", "Berta"] ∧
      ¬loaded healed.device.flash = before.engine.herd := by
  decide +kernel

end Steward

end Fodder
