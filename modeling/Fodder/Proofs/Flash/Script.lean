import Fodder.Flash.Device
import Mathlib.Tactic

/-!
# Scripts of changes

Whatever the program stores comes down to a script, a list of edits made one after the other until
a call fails. On a sound device the whole script is carried out and stands in the journal; a loss of
power leaves the contents after some first part of it, and so does a failing call.
-/
namespace Fodder

/-- A change to be made under a key of a space. -/
structure Edit where
  space : String
  key : String
  change : Change
  deriving DecidableEq, Repr

namespace Edit

def call (edit : Edit) : Call :=
  match edit.change with
  | .write _ => .write
  | .erase => .erase

/-- What is written is no larger than a blob may be. -/
def Fits (edit : Edit) : Prop :=
  match edit.change with
  | .write blob => blob.length ≤ Flash.blobCapacity
  | .erase => True

/-- The entry that the journal gets for the call. -/
def entry (edit : Edit) (failed : Bool) : JournalEntry :=
  ⟨edit.space, edit.key, edit.change, failed⟩

end Edit

namespace Flash

variable {space key other : String}

def edit (flash : Flash) (edit : Edit) : Flash := (edit.entry false).apply flash

/-- The contents after changes made one after the other. -/
def edited (flash : Flash) (edits : List Edit) : Flash := edits.foldl Flash.edit flash

theorem path_inj : path space key = path space other ↔ key = other := by
  constructor
  · intro h
    rw [path, path, ← String.toList_inj, String.toList_append (t := key),
      String.toList_append (t := other)] at h
    exact String.toList_inj.1 (List.append_cancel_left h)
  · exact fun h => h ▸ rfl

/-- A change is seen under its own key only. -/
theorem get?_edit (flash : Flash) (space key other : String) (change : Change) :
    (flash.edit ⟨space, key, change⟩).get? (path space other) =
      if other = key then
        match change with
        | .write blob => some blob
        | .erase => none
      else flash.get? (path space other) := by
  rw [edit, Edit.entry, JournalEntry.apply, if_neg (by simp)]
  cases change with
  | write blob => simp only [get?_put, path_inj]
  | erase => simp only [erase, get?_remove, path_inj]

/-- What is stored elsewhere stays the same. -/
theorem get?_edit_of_ne (flash : Flash) {edit : Edit} (h : path space key ≠ path edit.space edit.key) :
    (flash.edit edit).get? (path space key) = flash.get? (path space key) := by
  obtain ⟨other, name, change⟩ := edit
  rw [Flash.edit, Edit.entry, JournalEntry.apply, if_neg (by simp)]
  cases change with
  | write blob => exact (get?_put flash _ _ blob).trans (if_neg h)
  | erase => exact (get?_remove flash _ _).trans (if_neg h)

theorem read_edit_of_ne (flash : Flash) {edit : Edit} (h : path space key ≠ path edit.space edit.key)
    (room : Nat) : (flash.edit edit).read space key room = flash.read space key room := by
  rw [read, read, get?_edit_of_ne flash h]

theorem edited_append (flash : Flash) (edits more : List Edit) :
    flash.edited (edits ++ more) = (flash.edited edits).edited more :=
  List.foldl_append

end Flash

namespace Storage

variable {φ α β : Type}

@[simp] theorem on_pure (a : α) (device : Device φ) :
    (pure a : Storage φ α).on device = (.ok a, device) := rfl

@[simp] theorem on_throw (error : StorageError) (device : Device φ) :
    (throw error : Storage φ α).on device = (.error error, device) := rfl

@[simp] theorem on_mk_pure (answer : Except StorageError α) (device : Device φ) :
    on (ExceptT.mk (pure answer)) device = (answer, device) := rfl

theorem on_bind (op : Storage φ α) (next : α → Storage φ β) (device : Device φ) :
    (op >>= next).on device =
      match op.on device with
      | (.ok a, device) => (next a).on device
      | (.error error, device) => (.error error, device) := by
  simp only [on, ExceptT.run_bind, StateT.run_bind]
  rcases StateT.run (ExceptT.run op) device with ⟨answer, after⟩
  cases answer <;> rfl

@[simp] theorem on_attempt (op : Storage φ α) (device : Device φ) :
    (attempt op).on device = (.ok (op.on device).1, (op.on device).2) := rfl

variable [FaultSource φ]

/-- Makes a single change. -/
def make (edit : Edit) : Storage φ Unit :=
  match edit.change with
  | .write blob => write edit.space edit.key blob
  | .erase => erase edit.space edit.key

/-- A change that can be stored is made unless its call fails. -/
theorem make_on {edit : Edit} (hfits : edit.Fits) (device : Device φ) :
    (make edit).on device =
      match FaultSource.next device.faults edit.call edit.key with
      | (some error, faults) =>
        (.error error, ⟨device.flash, faults, edit.entry true :: device.journal⟩)
      | (none, faults) =>
        (.ok (), ⟨device.flash.edit edit, faults, edit.entry false :: device.journal⟩) := by
  obtain ⟨space, key, change⟩ := edit
  cases change with
  | write blob =>
    have hroom : ¬Flash.blobCapacity < blob.length := Nat.not_lt.2 hfits
    unfold make on write
    simp only [ExceptT.run_mk, StateT.run, Flash.write, if_neg hroom]
    rfl
  | erase => rfl

end Storage

/-! ## Devices after a script -/

namespace Device

variable {φ : Type}

/-- A device on which nothing fails, with these contents. -/
def sound (flash : Flash) : Device Unit := { flash, faults := () }

@[simp] theorem flash_sound (flash : Flash) : (sound flash).flash = flash := rfl

/-- The device after edits that all went through. -/
def after (device : Device φ) (edits : List Edit) (faults : φ) : Device φ where
  flash := device.flash.edited edits
  faults := faults
  journal := (edits.map (·.entry false)).reverse ++ device.journal

theorem after_after (device : Device φ) (edits more : List Edit) (faults later : φ) :
    (device.after edits faults).after more later = device.after (edits ++ more) later := by
  simp [after, Flash.edited_append]

/-- What a device holds when the power is lost after the first `n` calls of those that took it from
one state to a later one. -/
def cut (before later : Device φ) (n : Nat) : Flash :=
  let calls := (later.journal.take (later.journal.length - before.journal.length)).reverse
  (calls.take n).foldl JournalEntry.apply before.flash

theorem cut_after (device : Device φ) (edits : List Edit) (faults : φ) (n : Nat) :
    device.cut (device.after edits faults) n = device.flash.edited (edits.take n) := by
  have hlength : (device.after edits faults).journal.length - device.journal.length =
      (edits.map (·.entry false)).reverse.length := by
    simp [after]
  rw [cut, hlength, after]
  simp only [List.take_left, List.reverse_reverse, ← List.map_take, List.foldl_map]
  rfl

theorem cut_self (device : Device φ) (n : Nat) : device.cut device n = device.flash := by
  have hcut := cut_after device [] device.faults n
  rwa [List.take_nil] at hcut

end Device

namespace Storage

variable {φ : Type}

/-- What there is for every device can be chosen before a program has left its own. -/
theorem exists_of_done {op : Storage φ Unit} {edits : List Edit} (device : Device φ)
    {P : Nat → Device φ → Prop} (h : ∀ after, ∃ n, P n after) : ∃ n, ∀ faults,
      op.on device = (.ok (), device.after edits faults) → P n (device.after edits faults) := by
  by_cases hdone : ∃ faults, op.on device = (.ok (), device.after edits faults)
  · obtain ⟨faults, hdone⟩ := hdone
    obtain ⟨n, hn⟩ := h (device.after edits faults)
    refine ⟨n, fun later hlater => ?_⟩
    rw [hdone, Prod.mk.injEq] at hlater
    rw [← hlater.2]
    exact hn
  · exact ⟨0, fun later hlater => absurd ⟨later, hlater⟩ hdone⟩

variable [FaultSource φ]

/-- The program makes the edits in their order, unless a call fails: then those before it are made,
and the error is the one of the call. -/
def Carries (op : Storage φ Unit) (edits : List Edit) (device : Device φ) : Prop :=
  (∃ faults, op.on device = (.ok (), device.after edits faults)) ∨
    ∃ made failed rest error after, edits = made ++ failed :: rest ∧
      (∃ faults : φ, (FaultSource.next faults failed.call failed.key).1 = some error) ∧
      op.on device = (.error error, after) ∧ after.flash = device.flash.edited made

variable {op next : Storage φ Unit} {edits more : List Edit} {device : Device φ}

theorem Carries.bind (h : op.Carries edits device)
    (hnext : ∀ faults, op.on device = (.ok (), device.after edits faults) →
      next.Carries more (device.after edits faults)) :
    (op >>= fun _ => next).Carries (edits ++ more) device := by
  rcases h with ⟨faults, hdone⟩ | ⟨made, failed, rest, error, after, rfl, hfault, herror, hflash⟩
  · rcases hnext faults hdone with
      ⟨later, hdone'⟩ | ⟨made, failed, rest, error, after, rfl, hfault, herror, hflash⟩
    · left
      refine ⟨later, ?_⟩
      rw [on_bind, hdone, ← Device.after_after device edits more faults later]
      exact hdone'
    · right
      refine ⟨edits ++ made, failed, rest, error, after, by simp, hfault, ?_, ?_⟩
      · rw [on_bind, hdone]
        exact herror
      · rw [hflash, Flash.edited_append]
        rfl
  · right
    refine ⟨made, failed, rest ++ more, error, after, by simp, hfault, ?_, hflash⟩
    rw [on_bind, herror]

theorem carries_pure (device : Device φ) : (pure () : Storage φ Unit).Carries [] device :=
  .inl ⟨device.faults, rfl⟩

theorem make_carries {edit : Edit} (hfits : edit.Fits) (device : Device φ) :
    (make edit).Carries [edit] device := by
  have hmake := make_on hfits device
  cases hnext : FaultSource.next device.faults edit.call edit.key with
  | mk verdict faults =>
    rw [hnext] at hmake
    cases verdict with
    | none => exact .inl ⟨faults, hmake⟩
    | some error =>
      right
      exact ⟨[], edit, [], error, _, rfl, ⟨device.faults, by rw [hnext]⟩, hmake, rfl⟩

theorem eq_nil_of_singleton_eq {edit failed : Edit} {made rest : List Edit}
    (h : [edit] = made ++ failed :: rest) : made = [] := by
  cases made with
  | nil => rfl
  | cons other made => simp at h

/-- A single edit is made or nothing is. -/
theorem Carries.single {edit : Edit} (h : op.Carries [edit] device) :
    (∃ faults, op.on device = (.ok (), device.after [edit] faults)) ∨
      ∃ error after, op.on device = (.error error, after) ∧ after.flash = device.flash := by
  rcases h with hdone | ⟨made, failed, rest, error, after, hscript, -, hfailed, hflash⟩
  · exact .inl hdone
  · rw [eq_nil_of_singleton_eq hscript] at hflash
    exact .inr ⟨error, after, hfailed, hflash⟩

/-- Where nothing fails, a script is carried out to its end. -/
theorem Carries.on_sound {op : Storage Unit Unit} {device : Device Unit}
    (h : op.Carries edits device) : op.on device = (.ok (), device.after edits ()) := by
  rcases h with ⟨faults, hdone⟩ | ⟨made, failed, rest, error, after, -, ⟨faults, hfault⟩, -, -⟩
  · exact hdone
  · cases hfault

/-- Reading changes nothing but what fails next. -/
theorem read_on (space key : String) (room : Nat) (device : Device φ) :
    ∃ answer faults, (read space key room).on device = (answer, { device with faults }) := by
  cases hnext : FaultSource.next device.faults .read key with
  | mk verdict faults =>
    rw [on]
    simp only [read, ExceptT.run_mk, StateT.run, hnext]
    cases verdict with
    | none => exact ⟨_, faults, rfl⟩
    | some error => exact ⟨_, faults, rfl⟩

theorem read_on_sound (space key : String) (room : Nat) (device : Device Unit) :
    (read space key room).on device = (device.flash.read space key room, device) := rfl

end Storage

/-- Faults of which only write calls are hit: any of them, whatever the key. -/
class OnlyWritesFail (φ : Type) [FaultSource φ] : Prop where
  read_passes : ∀ (faults : φ) (key : String), (FaultSource.next faults .read key).1 = none
  erase_passes : ∀ (faults : φ) (key : String), (FaultSource.next faults .erase key).1 = none

instance : OnlyWritesFail Unit := ⟨fun _ _ => rfl, fun _ _ => rfl⟩

/-- Verdicts on the coming writes, in their order; every other call passes. -/
structure WriteVerdicts where
  verdicts : List (Option StorageError)
  deriving DecidableEq, Repr

instance : FaultSource WriteVerdicts where
  next faults call _ :=
    match call, faults.verdicts with
    | .write, verdict :: verdicts => (verdict, ⟨verdicts⟩)
    | _, _ => (none, faults)

instance : OnlyWritesFail WriteVerdicts := ⟨fun _ _ => rfl, fun _ _ => rfl⟩

theorem OnlyWritesFail.call_eq_write {φ : Type} [FaultSource φ] [OnlyWritesFail φ] {faults : φ}
    {edit : Edit} {error : StorageError}
    (h : (FaultSource.next faults edit.call edit.key).1 = some error) : edit.call = .write := by
  obtain ⟨space, key, change⟩ := edit
  cases change with
  | write blob => rfl
  | erase => exact absurd (h.symm.trans (erase_passes faults key)) (by simp)

end Fodder
