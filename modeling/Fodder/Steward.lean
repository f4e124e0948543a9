import Fodder.Cow.Form
import Fodder.Cow.Json
import Fodder.Engine
import Fodder.Herd.Store
import Fodder.Settings.Form

/-!
# Management

A steward keeps an engine and the device that stores it in step. Feeds are written when pending
slots are flushed; every change made on the management page is written through at once, and taken
back in memory when it cannot be written.
-/
namespace Fodder

structure Steward (φ : Type) where
  engine : Engine
  device : Device φ
  deriving DecidableEq, Repr

namespace Steward

variable {φ : Type} [FaultSource φ]

/-- The schedule to start with: the stored one, unless it cannot be read or makes no sense. -/
def startSettings : Except StorageError Settings → Settings
  | .ok settings => if settings.flaw?.isNone then settings else {}
  | .error _ => {}

/-- Starts from what is stored. Records that the herd does not accept are left out; the cleaned
table becomes pending and the store is cut to its size. -/
def boot (device : Device φ) : Steward φ :=
  let (loaded, device) := HerdStore.loadAll.on device
  let records := loaded.toOption.getD []
  let herd := Herd.ofRecords records
  let (settings, device) := HerdStore.loadSettings.on device
  let engine : Engine :=
    { herd, settings := startSettings settings, recent := RecentFeeds.ofHerd herd }
  if Herd.leftOut records = 0 then ⟨engine, device⟩
  else ⟨{ engine with pending := List.range herd.size }, ((HerdStore.resize herd.size).on device).2⟩

/-- What became of the pending slots. -/
structure Flushed (φ : Type) where
  written : Nat
  pending : List Nat
  device : Device φ
  deriving DecidableEq, Repr

/-- Writes slots in their order. Those that no cow is in any more are forgotten, those that cannot
be written stay pending. -/
def flushSlots (herd : Herd) : List Nat → Device φ → Flushed φ
  | [], device => ⟨0, [], device⟩
  | slot :: slots, device =>
    match herd.at? slot with
    | none => flushSlots herd slots device
    | some cow =>
      let (saved, device) := (HerdStore.save cow slot).on device
      let rest := flushSlots herd slots device
      match saved with
      | .ok () => { rest with written := rest.written + 1 }
      | .error _ => { rest with pending := slot :: rest.pending }

/-- Writes back what changed since the last time, and says how many slots were written. -/
def flush (s : Steward φ) : Nat × Steward φ :=
  let flushed := flushSlots s.engine.herd s.engine.pending s.device
  (flushed.written, ⟨{ s.engine with pending := flushed.pending }, flushed.device⟩)

/-- Takes an upsert back: the former record returns to its place, a new cow leaves again. -/
def undoUpsert (placed : Herd.Placed) (previous : Option Cow) (name : String) : Herd :=
  match previous with
  | some cow => placed.herd.putBack placed.index cow
  | none =>
    match placed.herd.remove name with
    | .ok (herd, _) => herd
    | .error _ => placed.herd

/-- Creates or edits a cow. Pending slots are written first, before places can change. -/
def upsert (cow : Cow) (s : Steward φ) : Except HerdError Unit × Steward φ :=
  let s := s.flush.2
  let previous := s.engine.herd.get? cow.name
  match s.engine.herd.upsert cow with
  | .error error => (.error error, s)
  | .ok placed =>
    match placed.herd.at? placed.index with
    | none => (.error .notFound, ⟨{ s.engine with herd := placed.herd }, s.device⟩)
    | some stored =>
      let write : Storage φ Unit := do
        HerdStore.save stored placed.index
        if placed.created then HerdStore.resize placed.herd.size
      match write.on s.device with
      | (.ok (), device) =>
        (.ok (), ⟨{ s.engine with herd := placed.herd, recent := RecentFeeds.ofHerd placed.herd },
          device⟩)
      | (.error error, device) =>
        (.error (.storage error),
          ⟨{ s.engine with herd := undoUpsert placed previous cow.name }, device⟩)

/-- Creates or edits a cow by its form. -/
def upsertJson (json : String) (s : Steward φ) : Except HerdError Unit × Steward φ :=
  match Cow.ofJson json with
  | .error error => (.error error, s)
  | .ok cow => s.upsert cow

/-- Writes the removal of a cow from `herd`: the cow that moved into its place, then the size. -/
def writeRemoval (herd : Herd) (vacated : Herd.Vacated) : Storage φ Unit := do
  if vacated.movedLast then
    match herd.at? vacated.index with
    | some moved => HerdStore.save moved vacated.index
    | none => pure ()
  HerdStore.resize herd.size

/-- Deletes a cow. When that cannot be written the cow returns; the slot of the one that was to take
its place becomes pending, since it may have been written already. -/
def delete (name : String) (s : Steward φ) : Except HerdError Unit × Steward φ :=
  let s := s.flush.2
  match s.engine.herd.get? name, s.engine.herd.remove name with
  | none, _ => (.error .notFound, s)
  | _, .error error => (.error error, s)
  | some cow, .ok (herd, vacated) =>
    match (writeRemoval herd vacated).on s.device with
    | (.ok (), device) =>
      (.ok (), ⟨{ s.engine with herd, recent := s.engine.recent.forget name }, device⟩)
    | (.error error, device) =>
      let engine := { s.engine with herd := herd.restore vacated cow }
      (.error (.storage error),
        ⟨if vacated.movedLast then engine.markPending vacated.index else engine, device⟩)

/-- Removes every cow, from memory first. -/
def clear (s : Steward φ) : Except HerdError Unit × Steward φ :=
  let engine : Engine := { settings := s.engine.settings }
  match (HerdStore.resize 0).on s.device with
  | (.ok (), device) => (.ok (), ⟨engine, device⟩)
  | (.error error, device) => (.error (.storage error), ⟨engine, device⟩)

/-- Stores a schedule and applies it. -/
def setSettings (settings : Settings) (s : Steward φ) : Except SettingsError Unit × Steward φ :=
  match settings.check with
  | .error error => (.error error, s)
  | .ok () =>
    match (HerdStore.saveSettings settings).on s.device with
    | (.error error, device) => (.error (.storage error), { s with device })
    | (.ok (), device) => (.ok (), ⟨{ s.engine with settings }, device⟩)

def setSettingsJson (json : String) (s : Steward φ) : Except SettingsError Unit × Steward φ :=
  match Settings.ofJson json with
  | .error error => (.error error, s)
  | .ok settings => s.setSettings settings

end Steward

namespace Engine

variable (engine : Engine)

/-! What the management page shows. -/

def namesJson : String := Json.list (engine.herd.names.map Json.text)

def cowJson? (name : String) : Option String := (engine.herd.get? name).map Cow.json

def settingsJson : String := engine.settings.json

def recentFeedsJson (limit : Nat) : String :=
  Json.list ((engine.recentFeeds limit).map RecentFeed.json)

end Engine

end Fodder
