import Fodder.Proofs.Herd.Scripts
import Fodder.Proofs.Herd.Sound
import Fodder.Steward

/-!
# What a change of the management page does

A change that is not turned away is a plan made from the engine alone: a script of edits, and the
engine with and without the change. The whole script is carried out, or a call fails and the engine
goes back; what was already written by then stays written.
-/
namespace Fodder.Steward

open HerdStore Storage

structure Plan where
  script : List Edit
  /-- The engine when the script was carried out. -/
  done : Engine
  /-- The engine when a call failed. -/
  undone : Engine

/-- The plans of a change that is taken back when it fails. -/
inductive Planned (engine : Engine) : Plan → Prop
  | edit {index : Nat} {cow : Cow} (recent : RecentFeeds) (here : index < engine.herd.size)
      (fits : cow.Fits) (sound : (engine.herd.putBack index cow).Sound) :
      Planned engine
        ⟨[saveEdit cow index], { engine with herd := engine.herd.putBack index cow, recent }, engine⟩
  | create {cow : Cow} {former : Nat} (recent : RecentFeeds) (fits : cow.Fits)
      (sound : (⟨engine.herd.cows ++ [cow]⟩ : Herd).Sound) :
      Planned engine
        ⟨saveEdit cow engine.herd.size :: truncation (engine.herd.size + 1) former,
          { engine with herd := ⟨engine.herd.cows ++ [cow]⟩, recent }, engine⟩
  | deleteLast {last : Cow} {former : Nat} (recent : RecentFeeds)
      (here : engine.herd.cows[engine.herd.size - 1]? = some last) :
      Planned engine
        ⟨truncation (engine.herd.size - 1) former,
          { engine with herd := engine.herd.fillFromEnd (engine.herd.size - 1), recent }, engine⟩
  | delete {index : Nat} {last : Cow} {former : Nat} (recent : RecentFeeds)
      (here : index < engine.herd.size - 1)
      (moved : engine.herd.cows[engine.herd.size - 1]? = some last) :
      Planned engine
        ⟨saveEdit last index :: truncation (engine.herd.size - 1) former,
          { engine with herd := engine.herd.fillFromEnd index, recent }, engine.markPending index⟩
  | schedule {settings : Settings} (valid : settings.Valid) (fits : settings.Fits) :
      Planned engine ⟨[settingsEdit settings], { engine with settings }, engine⟩

/-- Removing every cow is not taken back. -/
def clearing (engine : Engine) (former : Nat) : Plan :=
  ⟨truncation 0 former, { settings := engine.settings }, { settings := engine.settings }⟩

/-- A plan that is carried out leaves a sound herd. -/
theorem Planned.herd_done {engine : Engine} {plan : Plan} (hplan : Planned engine plan)
    (h : engine.herd.Sound) : plan.done.herd.Sound := by
  cases hplan with
  | edit recent here fits sound => exact sound
  | create recent fits sound => exact sound
  | deleteLast recent here => exact h.fillFromEnd _
  | delete recent here moved => exact h.fillFromEnd _
  | schedule valid fits => exact h

theorem Planned.fits_done {engine : Engine} {plan : Plan} (hplan : Planned engine plan)
    (h : ∀ cow ∈ engine.herd.cows, cow.Fits) : ∀ cow ∈ plan.done.herd.cows, cow.Fits := by
  intro other hother
  cases hplan with
  | edit recent here fits sound =>
    rcases List.mem_or_eq_of_mem_set hother with hother | rfl
    · exact h other hother
    · exact fits
  | create recent fits sound =>
    rcases List.mem_append.1 hother with hother | hother
    · exact h other hother
    · exact List.mem_singleton.1 hother ▸ fits
  | deleteLast recent here => exact h other (Herd.mem_of_mem_fillFromEnd hother)
  | delete recent here moved => exact h other (Herd.mem_of_mem_fillFromEnd hother)
  | schedule valid fits => exact h other hother

variable {φ : Type} [FaultSource φ] {ε : Type}

/-- How a plan ends: the answer and the steward after it. -/
def Plan.Ends (plan : Plan) (s : Steward φ) (outcome : Except ε Unit × Steward φ) : Prop :=
  (∃ faults, outcome = (.ok (), ⟨plan.done, s.device.after plan.script faults⟩)) ∨
    ∃ made failed rest cause error device, plan.script = made ++ failed :: rest ∧
      (∃ faults : φ, (FaultSource.next faults failed.call failed.key).1 = some cause) ∧
      device.flash = s.device.flash.edited made ∧ outcome = (.error error, ⟨plan.undone, device⟩)

/-- What a steward makes of the answer of a storing program. -/
def carryOut (write : Storage φ Unit) (done undone : Engine) (blame : StorageError → ε)
    (s : Steward φ) : Except ε Unit × Steward φ :=
  match write.on s.device with
  | (.ok (), device) => (.ok (), ⟨done, device⟩)
  | (.error error, device) => (.error (blame error), ⟨undone, device⟩)

theorem carryOut_ends {s : Steward φ} {write : Storage φ Unit} {script : List Edit}
    (h : write.Carries script s.device) (done undone : Engine) (blame : StorageError → ε) :
    Plan.Ends ⟨script, done, undone⟩ s (carryOut write done undone blame s) := by
  unfold carryOut
  rcases h with ⟨faults, hdone⟩ | ⟨made, failed, rest, cause, device, hscript, hfault, hfailed, hflash⟩
  · rw [hdone]
    exact .inl ⟨faults, rfl⟩
  · rw [hfailed]
    exact .inr ⟨made, failed, rest, cause, blame cause, device, hscript, hfault, hflash, rfl⟩

/-- A change is refused where it started from, or one of its plans ends. -/
def Settles (base : Steward φ) (outcome : Except ε Unit × Steward φ) : Prop :=
  (∃ error, outcome = (.error error, base)) ∨
    ∃ plan, Planned base.engine plan ∧ plan.Ends base outcome

theorem Settles.mapError {base : Steward φ} {outcome : Except ε Unit × Steward φ}
    (h : Settles base outcome) {δ : Type} (blame : ε → δ) :
    Settles base (outcome.1.mapError blame, outcome.2) := by
  rcases h with ⟨error, rfl⟩ | ⟨plan, hplan, hends⟩
  · exact .inl ⟨blame error, rfl⟩
  · right
    refine ⟨plan, hplan, ?_⟩
    rcases hends with
      ⟨faults, rfl⟩ | ⟨made, failed, rest, cause, error, device, hscript, hfault, hflash, rfl⟩
    · exact .inl ⟨faults, rfl⟩
    · exact .inr ⟨made, failed, rest, cause, blame error, device, hscript, hfault, hflash, rfl⟩

variable {s : Steward φ}

/-! ## The schedule, and removing every cow -/

theorem setSettings_of_valid {settings : Settings} (h : settings.Valid) :
    s.setSettings settings =
      carryOut (saveSettings settings) { s.engine with settings } s.engine .storage s := by
  unfold setSettings Settings.check carryOut
  rw [(Settings.flaw?_eq_none_iff settings).2 h]
  rcases (saveSettings settings).on s.device with ⟨error | done, device⟩ <;> rfl

/-- A schedule without a flaw is written, or taken back. -/
theorem setSettings_ends {settings : Settings} (h : settings.Valid) (hfits : settings.Fits) :
    Plan.Ends ⟨[settingsEdit settings], { s.engine with settings }, s.engine⟩ s
      (s.setSettings settings) := by
  rw [setSettings_of_valid h]
  exact carryOut_ends (saveSettings_carries s.device hfits) _ _ SettingsError.storage

theorem settles_setSettings {settings : Settings} (hfits : settings.Fits) :
    Settles s (s.setSettings settings) := by
  cases hflaw : settings.flaw? with
  | some flaw =>
    left
    unfold setSettings Settings.check
    simp only [hflaw]
    exact ⟨_, rfl⟩
  | none =>
    right
    have hvalid := (Settings.flaw?_eq_none_iff settings).1 hflaw
    exact ⟨_, .schedule hvalid hfits, setSettings_ends hvalid hfits⟩

theorem clear_ends (s : Steward φ) : ∃ former, (clearing s.engine former).Ends s s.clear := by
  have hlt : 0 < 65536 := by decide
  obtain ⟨former, hcarries⟩ := resize_carries s.device hlt
  exact ⟨former, carryOut_ends hcarries _ _ HerdError.storage⟩

/-! ## Creating and editing -/

/-- An edit that carries no feeds keeps those of the cow that it edits. -/
theorem fits_feedsAfter {herd : Herd} (hherd : ∀ cow ∈ herd.cows, cow.Fits) {cow : Cow}
    (hfits : cow.Fits) (index : Nat) :
    ({ cow with feeds := herd.feedsAfter index cow } : Cow).Fits := by
  refine ⟨hfits.name, hfits.earTag, ?_⟩
  unfold Herd.feedsAfter
  split_ifs
  · cases hold : herd.cows[index]? with
    | none => exact Nat.zero_le _
    | some old => exact (hherd old (List.mem_of_getElem? hold)).feeds
  · exact hfits.feeds

theorem upsert_of_edit {index : Nat} {cow old stored : Cow}
    (hupsert : s.flush.2.engine.herd.upsert cow =
      .ok ⟨s.flush.2.engine.herd.putBack index stored, index, false⟩)
    (hget : s.flush.2.engine.herd.get? cow.name = some old)
    (hold : s.flush.2.engine.herd.cows[index]? = some old) :
    s.upsert cow =
      carryOut (save stored index >>= fun _ => pure ())
        { s.flush.2.engine with
          herd := s.flush.2.engine.herd.putBack index stored
          recent := RecentFeeds.ofHerd (s.flush.2.engine.herd.putBack index stored) }
        s.flush.2.engine .storage s.flush.2 := by
  unfold upsert
  generalize s.flush.2 = flushed at *
  have hat := Herd.getElem?_putBack flushed.engine.herd hold stored index
  rw [if_pos rfl] at hat
  simp only [hupsert, Herd.at?, hat, undoUpsert, hget, Herd.putBack_putBack hold]
  rfl

theorem upsert_of_create {cow : Cow}
    (hupsert : s.flush.2.engine.herd.upsert cow =
      .ok ⟨⟨s.flush.2.engine.herd.cows ++ [cow]⟩, s.flush.2.engine.herd.size, true⟩)
    (hget : s.flush.2.engine.herd.get? cow.name = none) :
    s.upsert cow =
      carryOut
        (save cow s.flush.2.engine.herd.size >>= fun _ => resize (s.flush.2.engine.herd.size + 1))
        { s.flush.2.engine with
          herd := ⟨s.flush.2.engine.herd.cows ++ [cow]⟩
          recent := RecentFeeds.ofHerd ⟨s.flush.2.engine.herd.cows ++ [cow]⟩ }
        s.flush.2.engine .storage s.flush.2 := by
  unfold upsert
  generalize s.flush.2 = flushed at *
  have hat : (flushed.engine.herd.cows ++ [cow])[flushed.engine.herd.size]? = some cow :=
    List.getElem?_concat_length
  have hsize : (⟨flushed.engine.herd.cows ++ [cow]⟩ : Herd).size = flushed.engine.herd.size + 1 :=
    List.length_append
  have hremove := Herd.remove_append (Herd.get?_eq_none_iff.1 hget)
  simp only [hupsert, Herd.at?, hat, hsize, undoUpsert, hget, hremove]
  rfl

theorem upsert_edit_ends {index : Nat} {cow old stored : Cow} (hstored : stored.Fits)
    (hupsert : s.flush.2.engine.herd.upsert cow =
      .ok ⟨s.flush.2.engine.herd.putBack index stored, index, false⟩)
    (hget : s.flush.2.engine.herd.get? cow.name = some old)
    (hold : s.flush.2.engine.herd.cows[index]? = some old) :
    Plan.Ends
      ⟨[saveEdit stored index],
        { s.flush.2.engine with
          herd := s.flush.2.engine.herd.putBack index stored
          recent := RecentFeeds.ofHerd (s.flush.2.engine.herd.putBack index stored) },
        s.flush.2.engine⟩ s.flush.2 (s.upsert cow) := by
  have hcarries := (save_carries s.flush.2.device hstored index).bind fun faults _ =>
    carries_pure (s.flush.2.device.after _ faults)
  rw [upsert_of_edit hupsert hget hold]
  exact carryOut_ends hcarries _ _ HerdError.storage

theorem upsert_create_ends {cow : Cow} (hfits : cow.Fits)
    (hupsert : s.flush.2.engine.herd.upsert cow =
      .ok ⟨⟨s.flush.2.engine.herd.cows ++ [cow]⟩, s.flush.2.engine.herd.size, true⟩)
    (hget : s.flush.2.engine.herd.get? cow.name = none)
    (hsize : s.flush.2.engine.herd.size < Herd.capacity) :
    ∃ former, Plan.Ends
      ⟨saveEdit cow s.flush.2.engine.herd.size :: truncation (s.flush.2.engine.herd.size + 1) former,
        { s.flush.2.engine with
          herd := ⟨s.flush.2.engine.herd.cows ++ [cow]⟩
          recent := RecentFeeds.ofHerd ⟨s.flush.2.engine.herd.cows ++ [cow]⟩ },
        s.flush.2.engine⟩ s.flush.2 (s.upsert cow) := by
  have hlt : s.flush.2.engine.herd.size + 1 < 65536 :=
    (Nat.succ_le_of_lt hsize).trans_lt (by decide)
  obtain ⟨former, hcarries⟩ := then_resize_carries s.flush.2.device
    (save_carries s.flush.2.device hfits s.flush.2.engine.herd.size) hlt
  rw [upsert_of_create hupsert hget]
  exact ⟨former, carryOut_ends hcarries _ _ HerdError.storage⟩

/-- A cow that the herd takes is stored by one of the plans. -/
theorem upsert_ends (hsound : s.engine.herd.Sound)
    (hherd : ∀ cow ∈ s.engine.herd.cows, cow.Fits) {cow : Cow} (hfits : cow.Fits)
    {placed : Herd.Placed} (hupsert : s.flush.2.engine.herd.upsert cow = .ok placed) :
    ∃ plan, Planned s.flush.2.engine plan ∧ plan.Ends s.flush.2 (s.upsert cow) ∧
      plan.done = { s.flush.2.engine with
        herd := placed.herd, recent := RecentFeeds.ofHerd placed.herd } := by
  have hsound : s.flush.2.engine.herd.Sound := hsound
  have hherd : ∀ cow ∈ s.flush.2.engine.herd.cows, cow.Fits := hherd
  have hplaced := hsound.upsert hupsert
  obtain ⟨hvalid, ⟨index, old, hget, hold, hname, hcollar, rfl⟩ | ⟨hget, hsize, hcollar, rfl⟩⟩ :=
    Herd.upsert_eq_ok hupsert
  · have hstored := fits_feedsAfter hherd hfits index
    obtain ⟨hlt, -⟩ := List.getElem?_eq_some_iff.1 hold
    exact ⟨_, .edit _ hlt hstored hplaced, upsert_edit_ends hstored hupsert hget hold, rfl⟩
  · obtain ⟨former, hends⟩ := upsert_create_ends hfits hupsert hget hsize
    exact ⟨_, .create _ hfits hplaced, hends, rfl⟩

theorem upsert_of_error {cow : Cow} {error : HerdError}
    (hupsert : s.flush.2.engine.herd.upsert cow = .error error) :
    s.upsert cow = (.error error, s.flush.2) := by
  unfold upsert
  simp only [hupsert]

theorem settles_upsert (hsound : s.engine.herd.Sound)
    (hherd : ∀ cow ∈ s.engine.herd.cows, cow.Fits) {cow : Cow} (hfits : cow.Fits) :
    Settles s.flush.2 (s.upsert cow) := by
  cases hupsert : s.flush.2.engine.herd.upsert cow with
  | error error => exact .inl ⟨error, upsert_of_error hupsert⟩
  | ok placed =>
    obtain ⟨plan, hplan, hends, -⟩ := upsert_ends hsound hherd hfits hupsert
    exact .inr ⟨plan, hplan, hends⟩

/-! ## Deleting -/

/-- The last cow leaves, and no other moves. -/
theorem delete_of_last {name : String} {cow : Cow}
    (hget : s.flush.2.engine.herd.get? name = some cow)
    (hremove : s.flush.2.engine.herd.remove name =
      .ok (s.flush.2.engine.herd.fillFromEnd (s.flush.2.engine.herd.size - 1),
        ⟨s.flush.2.engine.herd.size - 1, false⟩))
    (hcow : s.flush.2.engine.herd.cows[s.flush.2.engine.herd.size - 1]? = some cow) :
    s.delete name =
      carryOut (resize (s.flush.2.engine.herd.size - 1))
        { s.flush.2.engine with
          herd := s.flush.2.engine.herd.fillFromEnd (s.flush.2.engine.herd.size - 1)
          recent := s.flush.2.engine.recent.forget name }
        s.flush.2.engine .storage s.flush.2 := by
  unfold delete
  generalize s.flush.2 = flushed at *
  have hrestore := Herd.restore_fillFromEnd hcow
  simp only [ne_eq, not_true_eq_false, decide_false] at hrestore
  simp only [hget, hremove, writeRemoval, Herd.size_fillFromEnd, hrestore, Bool.false_eq_true, if_false]
  rfl

/-- The last cow moves into the place of the one that leaves. -/
theorem delete_of_moved {name : String} {index : Nat} {cow last : Cow}
    (hget : s.flush.2.engine.herd.get? name = some cow)
    (hremove : s.flush.2.engine.herd.remove name =
      .ok (s.flush.2.engine.herd.fillFromEnd index, ⟨index, true⟩))
    (hcow : s.flush.2.engine.herd.cows[index]? = some cow)
    (hindex : index < s.flush.2.engine.herd.size - 1)
    (hlast : s.flush.2.engine.herd.cows[s.flush.2.engine.herd.size - 1]? = some last) :
    s.delete name =
      carryOut (save last index >>= fun _ => resize (s.flush.2.engine.herd.size - 1))
        { s.flush.2.engine with
          herd := s.flush.2.engine.herd.fillFromEnd index
          recent := s.flush.2.engine.recent.forget name }
        (s.flush.2.engine.markPending index) .storage s.flush.2 := by
  unfold delete
  generalize s.flush.2 = flushed at *
  have hat := Herd.getElem?_fillFromEnd flushed.engine.herd index index
  rw [if_pos hindex, if_pos rfl, hlast] at hat
  have hrestore := Herd.restore_fillFromEnd hcow
  simp only [ne_eq, hindex.ne, not_false_eq_true, decide_true] at hrestore
  simp only [hget, hremove, writeRemoval, Herd.size_fillFromEnd, Herd.at?, hat, hrestore, if_true]
  rfl

/-- What a deletion writes, and what it comes to when that is carried out or not. -/
theorem delete_cases {name : String} {rest : Herd} {vacated : Herd.Vacated}
    (hremove : s.flush.2.engine.herd.remove name = .ok (rest, vacated)) :
    (∃ last, s.flush.2.engine.herd.cows[s.flush.2.engine.herd.size - 1]? = some last ∧
        rest = s.flush.2.engine.herd.fillFromEnd (s.flush.2.engine.herd.size - 1) ∧
        s.delete name =
          carryOut (resize (s.flush.2.engine.herd.size - 1))
            { s.flush.2.engine with
              herd := s.flush.2.engine.herd.fillFromEnd (s.flush.2.engine.herd.size - 1)
              recent := s.flush.2.engine.recent.forget name }
            s.flush.2.engine .storage s.flush.2) ∨
      ∃ index last, index < s.flush.2.engine.herd.size - 1 ∧
        s.flush.2.engine.herd.cows[s.flush.2.engine.herd.size - 1]? = some last ∧
        rest = s.flush.2.engine.herd.fillFromEnd index ∧
        s.delete name =
          carryOut (save last index >>= fun _ => resize (s.flush.2.engine.herd.size - 1))
            { s.flush.2.engine with
              herd := s.flush.2.engine.herd.fillFromEnd index
              recent := s.flush.2.engine.recent.forget name }
            (s.flush.2.engine.markPending index) .storage s.flush.2 := by
  obtain ⟨index, cow, hget, hcow, -, rfl, rfl⟩ := Herd.remove_eq_ok hremove
  by_cases hlast : index = s.flush.2.engine.herd.size - 1
  · subst hlast
    exact .inl ⟨cow, hcow, rfl, delete_of_last hget (by simpa using hremove) hcow⟩
  · obtain ⟨hindex, -⟩ := List.getElem?_eq_some_iff.1 hcow
    have hindex : index < s.flush.2.engine.herd.size := hindex
    have hfront : index < s.flush.2.engine.herd.size - 1 := by omega
    have hend : s.flush.2.engine.herd.size - 1 < s.flush.2.engine.herd.cows.length :=
      Nat.sub_lt (Nat.zero_lt_of_lt hindex) Nat.one_pos
    have hmoved := List.getElem?_eq_getElem hend
    exact .inr ⟨index, _, hfront, hmoved, rfl,
      delete_of_moved hget (by simpa [hlast] using hremove) hcow hfront hmoved⟩

/-- A cow that leaves the herd is removed from the store by one of the plans. -/
theorem delete_ends (hsound : s.engine.herd.Sound)
    (hherd : ∀ cow ∈ s.engine.herd.cows, cow.Fits) {name : String} {rest : Herd}
    {vacated : Herd.Vacated} (hremove : s.flush.2.engine.herd.remove name = .ok (rest, vacated)) :
    ∃ plan, Planned s.flush.2.engine plan ∧ plan.Ends s.flush.2 (s.delete name) ∧
      plan.done = { s.flush.2.engine with
        herd := rest, recent := s.flush.2.engine.recent.forget name } := by
  have hlt : s.flush.2.engine.herd.size - 1 < 65536 :=
    (Nat.sub_le _ _).trans_lt (hsound.size.trans_lt (by decide))
  obtain ⟨last, hlast, rfl, hdelete⟩ | ⟨index, last, hfront, hmoved, rfl, hdelete⟩ :=
    delete_cases hremove
  · obtain ⟨former, hcarries⟩ := resize_carries s.flush.2.device hlt
    rw [hdelete]
    exact ⟨_, .deleteLast _ hlast, carryOut_ends hcarries _ _ HerdError.storage, rfl⟩
  · obtain ⟨former, hcarries⟩ := then_resize_carries s.flush.2.device
      (save_carries s.flush.2.device (hherd last (List.mem_of_getElem? hmoved)) index) hlt
    rw [hdelete]
    exact ⟨_, .delete _ hfront hmoved, carryOut_ends hcarries _ _ HerdError.storage, rfl⟩

theorem delete_of_error {name : String} {error : HerdError}
    (hremove : s.flush.2.engine.herd.remove name = .error error) :
    ∃ refusal, s.delete name = (.error refusal, s.flush.2) := by
  unfold delete
  cases hget : s.flush.2.engine.herd.get? name with
  | none =>
    simp only [hget]
    exact ⟨.notFound, rfl⟩
  | some cow =>
    simp only [hget, hremove]
    exact ⟨error, rfl⟩

theorem settles_delete (hsound : s.engine.herd.Sound)
    (hherd : ∀ cow ∈ s.engine.herd.cows, cow.Fits) (name : String) :
    Settles s.flush.2 (s.delete name) := by
  cases hremove : s.flush.2.engine.herd.remove name with
  | error error => exact .inl (delete_of_error hremove)
  | ok removed =>
    obtain ⟨plan, hplan, hends, -⟩ := delete_ends hsound hherd hremove
    exact .inr ⟨plan, hplan, hends⟩

end Fodder.Steward
