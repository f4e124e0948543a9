import Fodder.Proofs.Steward.Atomic
import Fodder.Proofs.Steward.Sound

/-!
# What operations do to memory

As long as no call of the device fails, the store has no say in what an engine does: every operation
changes memory in a way that is known without it, and a start with nothing pending finds what was
there. This is said for any way of keeping feeds, so that other histories can take the place of the
bounded ones.
-/
namespace Fodder

/-- What becomes of a history when a feed is added. -/
abbrev Keeping := FeedHistory → Feed → FeedHistory

def Herd.recordFeedBy (keep : Keeping) (herd : Herd) (index : Nat) (feed : Feed) : Herd :=
  ⟨herd.cows.modify index fun cow => { cow with feeds := keep cow.feeds feed }⟩

namespace Engine

variable (engine : Engine)

/-- Notes a feed of the cow in a slot. -/
def recordFeedBy (keep : Keeping) (slot : Nat) (name : String) (feed : Feed) : Engine where
  herd := engine.herd.recordFeedBy keep slot feed
  settings := engine.settings
  recent := engine.recent.record name feed
  pending := insertSlot slot engine.pending

/-- Decides on a collar at a station, and notes the feed if one is due. -/
def allocateBy (keep : Keeping) (now : Nat) (tag : UInt16) (station : UInt8) :
    Except AllocationError Allocation × Engine :=
  match engine.herd.wearer? tag with
  | none => (.error .unknownTag, engine)
  | some (slot, cow) =>
    match engine.settings.rule cow.feeds now with
    | .error error => (.error error, engine)
    | .ok .met => (.ok .quotaMet, engine)
    | .ok (.due minute) =>
      (.ok (.dispense (cow.ration.share engine.settings.rations)),
        engine.recordFeedBy keep slot cow.name ⟨station, minute⟩)

theorem allocateBy_push : engine.allocateBy FeedHistory.push = engine.allocate := rfl

/-- Nothing is pending any more. -/
def flushed : Engine := { engine with pending := [] }

def upserted (cow : Cow) : Engine :=
  match engine.herd.upsert cow with
  | .error _ => engine.flushed
  | .ok placed =>
    { engine.flushed with herd := placed.herd, recent := RecentFeeds.ofHerd placed.herd }

def deleted (name : String) : Engine :=
  match engine.herd.remove name with
  | .error _ => engine.flushed
  | .ok (herd, _) => { engine.flushed with herd, recent := engine.recent.forget name }

def cleared : Engine := { settings := engine.settings }

def scheduled (settings : Settings) : Engine :=
  match settings.check with
  | .error _ => engine
  | .ok () => { engine with settings }

/-- A new start from a store that holds all of it. -/
def restarted : Engine where
  herd := Herd.ofRecords engine.herd.cows
  settings := Steward.startSettings (.ok engine.settings)
  recent := RecentFeeds.ofHerd (Herd.ofRecords engine.herd.cows)

end Engine

namespace Steward

def Request.effect (engine : Engine) : Request → Engine
  | upsert cow _ => engine.upserted cow
  | upsertJson json =>
    match Cow.ofJson json with
    | .error _ => engine
    | .ok cow => engine.upserted cow
  | delete name => engine.deleted name
  | clear => engine.cleared
  | setSettings settings _ => engine.scheduled settings
  | setSettingsJson json =>
    match Settings.ofJson json with
    | .error _ => engine
    | .ok settings => engine.scheduled settings

/-- What an operation does to an engine whose store never fails. -/
def Operation.effect (keep : Keeping) (engine : Engine) : Operation → Engine
  | allocate now tag station => (engine.allocateBy keep now tag station).2
  | flush => engine.flushed
  | request asked => asked.effect engine
  | reboot => engine.restarted

/-! ## Answers -/

variable {φ : Type} [FaultSource φ]

/-- The answer to a collar, if the operation asks for one. -/
def Operation.answer? (s : Steward φ) : Operation → Option (Except AllocationError Allocation)
  | allocate now tag station => some (s.engine.allocate now tag station).1
  | _ => none

/-- The answers that a steward gives in the course of operations. -/
def answers (s : Steward φ) : List Operation → List (Except AllocationError Allocation)
  | [] => []
  | operation :: operations =>
    (operation.answer? s).toList ++ answers (operation.apply s) operations

/-- The answer of an engine that keeps feeds in its own way. -/
def Operation.answerBy? (keep : Keeping) (engine : Engine) :
    Operation → Option (Except AllocationError Allocation)
  | allocate now tag station => some (engine.allocateBy keep now tag station).1
  | _ => none

def answersBy (keep : Keeping) (engine : Engine) :
    List Operation → List (Except AllocationError Allocation)
  | [] => []
  | operation :: operations =>
    (operation.answerBy? keep engine).toList ++
      answersBy keep (operation.effect keep engine) operations

def runBy (keep : Keeping) (engine : Engine) (operations : List Operation) : Engine :=
  operations.foldl (Operation.effect keep) engine

/-- Whether an operation, if it is a new start, finds nothing pending. -/
def Operation.isFlushed (engine : Engine) : Operation → Bool
  | reboot => engine.pending.isEmpty
  | _ => true

/-- Every new start in the course of operations finds nothing pending. -/
def startsFlushed (s : Steward φ) : List Operation → Bool
  | [] => true
  | operation :: operations =>
    operation.isFlushed s.engine && startsFlushed (operation.apply s) operations

/-! ## Devices without faults -/

section Sound

variable {s : Steward Unit}

theorem engine_flush (h : s.engine.Sound) : s.flush.2.engine = s.engine.flushed := by
  have hpending := pending_flushSlots_sound h.fits s.engine.pending s.device
  simp only [flush, hpending, Engine.flushed]

theorem engine_upsert (h : s.engine.Sound) {cow : Cow} (hfits : cow.Fits) :
    (s.upsert cow).2.engine = s.engine.upserted cow := by
  unfold Engine.upserted
  cases hupsert : s.engine.herd.upsert cow with
  | error error =>
    rw [upsert_of_error hupsert]
    exact engine_flush h
  | ok placed =>
    obtain ⟨plan, -, hends, hdone⟩ := upsert_ends h.herd h.fits hfits hupsert
    rw [hends.on_sound, hdone, engine_flush h]

theorem engine_delete (h : s.engine.Sound) (name : String) :
    (s.delete name).2.engine = s.engine.deleted name := by
  unfold Engine.deleted
  cases hremove : s.engine.herd.remove name with
  | error error =>
    obtain ⟨refusal, hrefused⟩ := delete_of_error hremove
    rw [hrefused]
    exact engine_flush h
  | ok removed =>
    obtain ⟨plan, -, hends, hdone⟩ := delete_ends h.herd h.fits hremove
    rw [hends.on_sound, hdone, engine_flush h]
    rfl

theorem engine_clear (s : Steward Unit) : s.clear.2.engine = s.engine.cleared := by
  obtain ⟨former, hends⟩ := clear_ends s
  rw [hends.on_sound]
  rfl

theorem engine_setSettings {settings : Settings} (hfits : settings.Fits) :
    (s.setSettings settings).2.engine = s.engine.scheduled settings := by
  unfold Engine.scheduled
  cases hflaw : settings.flaw? with
  | some flaw => simp [setSettings, Settings.check, hflaw]
  | none =>
    have hvalid := (Settings.flaw?_eq_none_iff settings).1 hflaw
    rw [(setSettings_ends hvalid hfits).on_sound]
    simp [Settings.check, hflaw]

theorem Request.engine_serve (h : s.engine.Sound) (request : Request) :
    (request.serve s).2.engine = request.effect s.engine := by
  cases request with
  | upsert cow fits => exact engine_upsert h fits
  | upsertJson json =>
    simp only [serve, effect, Steward.upsertJson]
    cases hjson : Cow.ofJson json with
    | error error => rfl
    | ok cow => exact engine_upsert h (fits_of_ofJson hjson)
  | delete name => exact engine_delete h name
  | clear => exact engine_clear s
  | setSettings settings fits => exact engine_setSettings fits
  | setSettingsJson json =>
    simp only [serve, effect, Steward.setSettingsJson]
    cases hjson : Settings.ofJson json with
    | error error => rfl
    | ok settings => exact engine_setSettings (settingsFits_of_ofJson hjson)

theorem engine_boot (h : Backed True s.engine s.device.flash) (hsound : s.engine.Sound)
    (hpending : s.engine.pending = []) : (boot s.device).engine = s.engine.restarted := by
  have hall : Herd.leftOut s.engine.herd.cows = 0 := by
    rw [Herd.leftOut_eq_zero_iff, Herd.ofRecords_of_sound h.sound]
  rw [boot_engine, h.found_eq hpending, if_pos hall, h.settings, Engine.restarted,
    startSettings_ok hsound.settings]

/-- Memory backed by a device without faults stays so, also over a new start. -/
theorem Backed.apply_faultless (h : Backed True s.engine s.device.flash) (operation : Operation) :
    Backed True (operation.apply s).engine (operation.apply s).device.flash := by
  by_cases hreboot : operation = .reboot
  · subst hreboot
    exact backed_boot (.inl trivial)
  · exact h.apply hreboot (clearsIfAsked_sound operation s)

theorem Backed.run_faultless (h : Backed True s.engine s.device.flash) (operations : List Operation) :
    Backed True (s.run operations).engine (s.run operations).device.flash :=
  run_induction (fun s : Steward Unit => Backed True s.engine s.device.flash)
    (fun _ operation h => h.apply_faultless operation) h operations

/-- On a device without faults memory changes as if there were no store, unless a start finds
something pending. -/
theorem Operation.engine_apply (h : Backed True s.engine s.device.flash) (hsound : s.engine.Sound)
    (operation : Operation) (hflushed : operation.isFlushed s.engine = true) :
    (operation.apply s).engine = operation.effect FeedHistory.push s.engine := by
  cases operation with
  | allocate now tag station => rfl
  | flush => exact engine_flush hsound
  | request asked => exact asked.engine_serve hsound
  | reboot => exact engine_boot h hsound (List.isEmpty_iff.1 hflushed)

theorem Operation.answer?_eq (operation : Operation) (s : Steward Unit) :
    operation.answer? s = operation.answerBy? FeedHistory.push s.engine := by
  cases operation with
  | allocate now tag station => rw [answer?, answerBy?, Engine.allocateBy_push]
  | flush | request asked | reboot => rfl

/-- So it does over whole runs, and all answers come from memory alone. -/
theorem answers_run_eq (h : Backed True s.engine s.device.flash) (hsound : s.engine.Sound)
    {operations : List Operation} (hflushed : startsFlushed s operations = true) :
    s.answers operations = answersBy FeedHistory.push s.engine operations ∧
      (s.run operations).engine = runBy FeedHistory.push s.engine operations := by
  induction operations generalizing s with
  | nil => exact ⟨rfl, rfl⟩
  | cons operation operations ih =>
    rw [startsFlushed, Bool.and_eq_true] at hflushed
    obtain ⟨hanswers, hrun⟩ :=
      ih (h.apply_faultless operation) (sound_apply hsound operation) hflushed.2
    rw [operation.engine_apply h hsound hflushed.1] at hanswers hrun
    rw [answers, answersBy, hanswers, operation.answer?_eq]
    exact ⟨rfl, hrun⟩

end Sound

end Steward

end Fodder
