import Fodder.Proofs.RecentFeeds
import Fodder.Proofs.Steward.Slots

/-!
# The index in the course of operations

The index is made anew from the histories whenever a cow is created or edited and at every start; a
feed that is given is appended to it, and the entries of a cow that leaves are taken out. While the
clock does not go back, no history ever has a feed newer than the oldest entry that is not an entry as
well. How many entries there are is another matter: a deletion does not look for feeds of other cows
to take the place of the entries it takes out.
-/
namespace Fodder

namespace Engine

/-- The index stands in order and covers the histories, and no feed is from after the last reading of
the clock. -/
structure Current (now : Nat) (engine : Engine) : Prop where
  ordered : engine.recent.Ordered
  covers : engine.recent.Covers engine.herd.held
  recent : ∀ feed ∈ engine.recent, feed.minute.toNat ≤ now / 60
  herd : ∀ cow ∈ engine.herd.cows, cow.Past now

/-- There are as many entries as feeds are held, up to the room of the index. -/
def Complete (engine : Engine) : Prop :=
  min RecentFeeds.capacity engine.herd.held.length ≤ engine.recent.length

/-- What is left of the index without a cow has as many entries as the other cows have feeds, up to
the room of the index. -/
def LeavesEnough (engine : Engine) (name : String) : Prop :=
  min RecentFeeds.capacity (engine.herd.held.filter (·.cow ≠ name)).length ≤
    (engine.recent.forget name).length

instance (engine : Engine) (name : String) : Decidable (engine.LeavesEnough name) :=
  inferInstanceAs (Decidable (_ ≤ _))

variable {engine : Engine} {herd : Herd} {now later slot : Nat} {cow : Cow} {feed : Feed}
  {name : String}

/-! ## The index made anew -/

theorem current_ofHerd (hrecent : engine.recent = RecentFeeds.ofHerd engine.herd)
    (hpast : ∀ cow ∈ engine.herd.cows, cow.Past now) : engine.Current now := by
  have hordered := RecentFeeds.ordered_chronological engine.herd.held
  have hperm := RecentFeeds.chronological_perm engine.herd.held
  have hsuffix : engine.recent <:+ RecentFeeds.chronological engine.herd.held := by
    rw [hrecent]
    exact newest_suffix _ _
  have hcovers := (RecentFeeds.covers_of_perm hperm).suffix hordered hsuffix
  refine ⟨hordered.suffix hsuffix, hcovers, ?_, hpast⟩
  intro feed hfeed
  exact RecentFeeds.minute_le_of_mem_held hpast (hperm.subset (hsuffix.subset hfeed))

theorem complete_ofHerd (hrecent : engine.recent = RecentFeeds.ofHerd engine.herd) :
    engine.Complete := by
  have hlength := (RecentFeeds.chronological_perm engine.herd.held).length_eq
  rw [Complete, hrecent, ← hlength]
  exact (length_newest _ _).ge

/-! ## Feeds -/

theorem past_recordFeed (h : ∀ cow ∈ herd.cows, cow.Past now) (hminute : feed.minute.toNat = now / 60) :
    ∀ cow ∈ (herd.recordFeed slot feed).cows, cow.Past now := by
  intro cow hcow given hgiven
  obtain ⟨old, hold, rfl | rfl⟩ := Herd.exists_of_mem_recordFeed hcow
  · exact h _ hold given hgiven
  · rcases List.mem_append.1 ((newest_suffix _ _).subset hgiven) with hgiven | hgiven
    · exact h old hold given hgiven
    · exact (List.mem_singleton.1 hgiven) ▸ hminute.le

theorem recent_recordFeed (engine : Engine) (slot : Nat) (feed : Feed) (hfits : cow.Fits) :
    (engine.recordFeed slot cow.name feed).recent =
      newest RecentFeeds.capacity (engine.recent ++ [RecentFeeds.entry cow.name feed]) :=
  if_neg (Nat.not_lt.2 hfits.name)

/-- The feed that is noted now is not older than any other. -/
theorem Current.recordFeed (h : engine.Current now) (hcow : engine.herd.cows[slot]? = some cow)
    (hfits : cow.Fits) (hminute : feed.minute.toNat = now / 60) :
    (engine.recordFeed slot cow.name feed).Current now := by
  have hpast : ∀ cow ∈ (engine.herd.recordFeed slot feed).cows, cow.Past now :=
    past_recordFeed h.herd hminute
  have hnew : ∀ other ∈ engine.recent, other.minute ≤ feed.minute := by
    intro other hother
    rw [UInt32.le_iff_toNat_le, hminute]
    exact h.recent other hother
  have hheld : ∀ other ∈ (engine.herd.recordFeed slot feed).held, other.minute ≤ feed.minute := by
    intro other hother
    rw [UInt32.le_iff_toNat_le, hminute]
    exact RecentFeeds.minute_le_of_mem_held hpast hother
  have hrecent := engine.recent_recordFeed slot feed hfits
  have hordered : RecentFeeds.Ordered (engine.recent ++ [RecentFeeds.entry cow.name feed]) :=
    h.ordered.concat hnew
  have hsuffix := newest_suffix RecentFeeds.capacity
    (engine.recent ++ [RecentFeeds.entry cow.name feed])
  constructor
  · rw [hrecent]
    exact hordered.suffix hsuffix
  · rw [hrecent]
    have hsubperm := RecentFeeds.held_recordFeed_subperm hcow feed
    exact (h.covers.concat hsubperm hheld).suffix hordered hsuffix
  · intro other hother
    rw [hrecent] at hother
    rcases List.mem_append.1 (hsuffix.subset hother) with hother | hother
    · exact h.recent other hother
    · exact (List.mem_singleton.1 hother) ▸ hminute.le
  · exact hpast

theorem Complete.recordFeed (h : engine.Complete) (hcow : engine.herd.cows[slot]? = some cow)
    (hfits : cow.Fits) : (engine.recordFeed slot cow.name feed).Complete := by
  have hheld := (RecentFeeds.held_recordFeed_subperm hcow feed).length_le
  have hrecent := engine.recent_recordFeed slot feed hfits
  unfold Complete at h ⊢
  rw [hrecent, length_newest]
  simp only [Engine.recordFeed, List.length_append, List.length_singleton] at hheld ⊢
  omega

theorem Current.mono (h : engine.Current now) (hle : now ≤ later) : engine.Current later where
  ordered := h.ordered
  covers := h.covers
  recent feed hfeed := (h.recent feed hfeed).trans (Nat.div_le_div_right hle)
  herd cow hcow := (h.herd cow hcow).mono hle

theorem Current.allocate (h : engine.Current now) (hsound : engine.Sound) (tag : UInt16)
    (station : UInt8) : (engine.allocate now tag station).2.Current now := by
  rcases engine.allocate_cases now tag station with
    hsame | ⟨slot, cow, minute, hcow, hminute, hnoted⟩
  · rw [hsame]
    exact h
  · rw [hnoted]
    exact h.recordFeed hcow (hsound.fits cow (List.mem_of_getElem? hcow)) hminute

theorem Complete.allocate (h : engine.Complete) (hsound : engine.Sound) (now : Nat) (tag : UInt16)
    (station : UInt8) : (engine.allocate now tag station).2.Complete := by
  rcases engine.allocate_cases now tag station with hsame | ⟨slot, cow, minute, hcow, -, hnoted⟩
  · rw [hsame]
    exact h
  · rw [hnoted]
    exact h.recordFeed hcow (hsound.fits cow (List.mem_of_getElem? hcow))

/-! ## Requests -/

theorem Current.flushed (h : engine.Current now) : engine.flushed.Current now :=
  ⟨h.ordered, h.covers, h.recent, h.herd⟩

/-- A cow that brings no feeds along has those of the cow that it edits. -/
theorem feeds_upsert {placed : Herd.Placed} (hfeeds : cow.feeds = [])
    (hok : herd.upsert cow = .ok placed) :
    ∀ other ∈ placed.herd.cows, other.feeds = [] ∨ ∃ old ∈ herd.cows, other.feeds = old.feeds := by
  obtain ⟨-, ⟨index, old, -, hold, -, -, rfl⟩ | ⟨-, -, -, rfl⟩⟩ := Herd.upsert_eq_ok hok
  · intro other hother
    right
    rcases List.mem_or_eq_of_mem_set hother with hother | rfl
    · exact ⟨other, hother, rfl⟩
    · exact ⟨old, List.mem_of_getElem? hold, by simp [Herd.feedsAfter, hfeeds, hold]⟩
  · intro other hother
    rcases List.mem_append.1 hother with hother | hother
    · exact .inr ⟨other, hother, rfl⟩
    · obtain rfl := List.mem_singleton.1 hother
      exact .inl hfeeds

theorem past_upsert {placed : Herd.Placed} (h : ∀ cow ∈ herd.cows, cow.Past now)
    (hfeeds : cow.feeds = []) (hok : herd.upsert cow = .ok placed) :
    ∀ cow ∈ placed.herd.cows, cow.Past now := by
  intro other hother feed hfeed
  rcases feeds_upsert hfeeds hok other hother with hnone | ⟨old, hold, hsame⟩
  · rw [hnone] at hfeed
    cases hfeed
  · rw [hsame] at hfeed
    exact h old hold feed hfeed

theorem Current.upserted (h : engine.Current now) (hfeeds : cow.feeds = []) :
    (engine.upserted cow).Current now := by
  unfold Engine.upserted
  cases hupsert : engine.herd.upsert cow with
  | error error => exact h.flushed
  | ok placed => exact current_ofHerd rfl (past_upsert h.herd hfeeds hupsert)

theorem Complete.upserted (h : engine.Complete) (cow : Cow) : (engine.upserted cow).Complete := by
  unfold Engine.upserted
  cases engine.herd.upsert cow with
  | error error => exact h
  | ok placed => exact complete_ofHerd rfl

theorem deleted_of_not_mem (hname : name ∉ engine.herd.names) :
    engine.deleted name = engine.flushed := by
  have hremove : engine.herd.remove name = .error .notFound := by
    rw [Herd.remove, Herd.position?_eq_none_iff.2 hname]
  simp only [deleted, hremove]

/-- What a deletion leaves of the feeds and of the index. -/
theorem deleted_of_mem (hsound : engine.Sound) (hname : name ∈ engine.herd.names) :
    (engine.deleted name).recent = engine.recent.forget name ∧
      (engine.deleted name).herd.held.Perm (engine.herd.held.filter (·.cow ≠ name)) ∧
      ∀ cow ∈ (engine.deleted name).herd.cows, cow ∈ engine.herd.cows := by
  unfold deleted
  cases hremove : engine.herd.remove name with
  | error error => exact absurd hname (Herd.not_mem_names_of_remove hremove)
  | ok removed =>
    obtain ⟨rest, vacated⟩ := removed
    obtain ⟨index, cow, -, hcow, rfl, rfl, -⟩ := Herd.remove_eq_ok hremove
    exact ⟨rfl, RecentFeeds.held_fillFromEnd_perm hsound.herd hcow,
      fun other => Herd.mem_of_mem_fillFromEnd⟩

theorem Current.deleted (h : engine.Current now) (hsound : engine.Sound) (name : String) :
    (engine.deleted name).Current now := by
  by_cases hname : name ∈ engine.herd.names
  · obtain ⟨hrecent, hheld, hcows⟩ := deleted_of_mem hsound hname
    constructor
    · rw [hrecent]
      exact List.Pairwise.filter _ h.ordered
    · intro oldest holdest
      rw [hrecent] at holdest ⊢
      have hcovered := h.covers.forget h.ordered name oldest holdest
      exact ((hheld.filter _).subperm_right).2 hcovered
    · intro feed hfeed
      rw [hrecent] at hfeed
      exact h.recent feed (List.mem_of_mem_filter hfeed)
    · exact fun cow hcow => h.herd cow (hcows cow hcow)
  · rw [deleted_of_not_mem hname]
    exact h.flushed

theorem complete_deleted_iff (hsound : engine.Sound) (hname : name ∈ engine.herd.names) :
    (engine.deleted name).Complete ↔ engine.LeavesEnough name := by
  obtain ⟨hrecent, hheld, -⟩ := deleted_of_mem hsound hname
  rw [Complete, LeavesEnough, hrecent, hheld.length_eq]

theorem Current.scheduled (h : engine.Current now) (settings : Settings) :
    (engine.scheduled settings).Current now := by
  unfold Engine.scheduled
  cases settings.check with
  | error error => exact h
  | ok checked => exact ⟨h.ordered, h.covers, h.recent, h.herd⟩

theorem Complete.scheduled (h : engine.Complete) (settings : Settings) :
    (engine.scheduled settings).Complete := by
  unfold Engine.scheduled
  cases settings.check with
  | error error => exact h
  | ok checked => exact h

theorem complete_cleared (engine : Engine) : engine.cleared.Complete := Nat.zero_le _

end Engine

namespace Steward

open HerdStore

/-! ## Operations -/

/-- What comes by a form brings no feeds along. -/
def Request.BringsNoFeeds : Request → Prop
  | upsert cow _ => cow.feeds = []
  | _ => True

def Operation.BringsNoFeeds : Operation → Prop
  | request asked => asked.BringsNoFeeds
  | _ => True

/-- The reading of the clock that an operation goes by. -/
def Operation.reading? : Operation → Option Nat
  | allocate now _ _ => some now
  | _ => none

theorem feeds_of_ofJson {json : String} {cow : Cow} (h : Cow.ofJson json = .ok cow) :
    cow.feeds = [] := by
  obtain ⟨filled, -, -, rfl⟩ := exists_filled_of_ofJson h
  rfl

section Requests

variable {engine : Engine} {now : Nat}

/-- A text does what the form does that it is read as, and nothing if it is not read. -/
theorem Request.holds_effect {holds : Engine → Prop} (h : holds engine) (request : Request)
    (hupserted : ∀ cow : Cow, (request.BringsNoFeeds → cow.feeds = []) →
      holds (engine.upserted cow))
    (hdeleted : ∀ name, request = .delete name → holds (engine.deleted name))
    (hcleared : holds engine.cleared)
    (hscheduled : ∀ settings, holds (engine.scheduled settings)) : holds (request.effect engine) := by
  cases request with
  | upsert cow fits => exact hupserted cow id
  | upsertJson json =>
    simp only [effect]
    cases hjson : Cow.ofJson json with
    | error error => exact h
    | ok cow => exact hupserted cow fun _ => feeds_of_ofJson hjson
  | delete name => exact hdeleted name rfl
  | clear => exact hcleared
  | setSettings settings fits => exact hscheduled settings
  | setSettingsJson json =>
    simp only [effect]
    cases Settings.ofJson json with
    | error error => exact h
    | ok settings => exact hscheduled settings

theorem Request.current_effect (h : engine.Current now) (hsound : engine.Sound) {request : Request}
    (hform : request.BringsNoFeeds) : (request.effect engine).Current now := by
  refine Request.holds_effect h request ?_ ?_ ?_ ?_
  · intro cow hfeeds
    exact h.upserted (hfeeds hform)
  · intro name _
    exact h.deleted hsound name
  · exact Engine.current_ofHerd rfl fun cow hcow => absurd hcow List.not_mem_nil
  · exact h.scheduled

/-- Only a deletion can take more entries out of the index than feeds leave with the cow. -/
theorem Request.complete_effect (h : engine.Complete) (hsound : engine.Sound) {request : Request}
    (hdelete : ∀ name, request = .delete name → name ∈ engine.herd.names → engine.LeavesEnough name) :
    (request.effect engine).Complete := by
  refine Request.holds_effect h request ?_ ?_ engine.complete_cleared h.scheduled
  · intro cow _
    exact h.upserted cow
  · intro name hrequest
    by_cases hname : name ∈ engine.herd.names
    · exact (Engine.complete_deleted_iff hsound hname).2 (hdelete name hrequest hname)
    · rw [Engine.deleted_of_not_mem hname]
      exact h

end Requests

/-! ## Runs -/

/-- Index and histories belong together, in memory and for what a start would find in the slots. -/
structure Timely (now : Nat) (s : Steward Unit) : Prop where
  sound : s.engine.Sound
  current : s.engine.Current now
  stored : AllStored (Cow.Past now) s.device.flash

variable {s : Steward Unit} {now later : Nat}

theorem Timely.mono (h : Timely now s) (hle : now ≤ later) : Timely later s where
  sound := h.sound
  current := h.current.mono hle
  stored index cow hcow := (h.stored index cow hcow).mono hle

theorem recent_boot (device : Device Unit) :
    (boot device).engine.recent = RecentFeeds.ofHerd (boot device).engine.herd := by
  rw [boot_engine]

theorem current_boot {device : Device Unit} (h : AllStored (Cow.Past now) device.flash) :
    (boot device).engine.Current now := by
  refine Engine.current_ofHerd (recent_boot device) fun cow hcow => ?_
  rw [boot_herd] at hcow
  exact allStored_found h cow ((Herd.cows_ofRecords_sublist _).subset hcow)

theorem Timely.current_apply (h : Timely now s) {operation : Operation}
    (hform : operation.BringsNoFeeds) (hclock : ∀ reading ∈ operation.reading?, reading = now) :
    (operation.apply s).engine.Current now := by
  cases operation with
  | allocate reading tag station =>
    obtain rfl := hclock reading rfl
    exact h.current.allocate h.sound tag station
  | flush =>
    rw [Operation.apply, engine_flush h.sound]
    exact h.current.flushed
  | request asked =>
    rw [Operation.apply, asked.engine_serve h.sound]
    exact Request.current_effect h.current h.sound hform
  | reboot => exact current_boot h.stored

theorem Timely.apply (h : Timely now s) {operation : Operation} (hform : operation.BringsNoFeeds)
    (hclock : ∀ reading ∈ operation.reading?, reading = now) : Timely now (operation.apply s) := by
  have hcurrent := h.current_apply hform hclock
  exact ⟨sound_apply h.sound operation, hcurrent,
    allStored_apply h.sound h.stored h.current.herd operation hcurrent.herd⟩

/-- What every operation keeps at the reading that it goes by, and what no later reading takes away,
holds after every run whose clock does not go back. -/
theorem run_of_clock (Holds : Nat → Steward Unit → Prop)
    (hmono : ∀ {now later : Nat} {s : Steward Unit}, Holds now s → now ≤ later → Holds later s)
    (happly : ∀ {now : Nat} {s : Steward Unit} {operation : Operation}, Holds now s →
      operation.BringsNoFeeds → (∀ reading ∈ operation.reading?, reading = now) →
      Holds now (operation.apply s))
    (h : Holds now s) {operations : List Operation}
    (hclock : (now :: operations.filterMap Operation.reading?).Pairwise (· ≤ ·))
    (hforms : ∀ operation ∈ operations, operation.BringsNoFeeds) :
    ∃ later, Holds later (s.run operations) := by
  induction operations generalizing s now with
  | nil => exact ⟨now, h⟩
  | cons operation operations ih =>
    obtain ⟨hform, hforms⟩ := List.forall_mem_cons.1 hforms
    cases hreading : operation.reading? with
    | none =>
      rw [List.filterMap_cons_none hreading] at hclock
      exact ih (happly h hform (by simp [hreading])) hclock hforms
    | some reading =>
      rw [List.filterMap_cons_some hreading] at hclock
      obtain ⟨hle, hclock⟩ := List.pairwise_cons.1 hclock
      have hlater := hmono h (hle reading List.mem_cons_self)
      exact ih (happly hlater hform (by simp [hreading])) hclock hforms

theorem Timely.run (h : Timely now s) {operations : List Operation}
    (hclock : (now :: operations.filterMap Operation.reading?).Pairwise (· ≤ ·))
    (hforms : ∀ operation ∈ operations, operation.BringsNoFeeds) :
    ∃ later, Timely later (s.run operations) :=
  run_of_clock Timely Timely.mono (fun h => h.apply) h hclock hforms

/-- An operation leaves the index complete, unless it deletes a cow and leaves too little. -/
theorem complete_apply (h : s.engine.Complete) (hsound : s.engine.Sound) {operation : Operation}
    (hdelete : ∀ name, operation = .request (.delete name) → name ∈ s.engine.herd.names →
      s.engine.LeavesEnough name) : (operation.apply s).engine.Complete := by
  cases operation with
  | allocate now tag station => exact h.allocate hsound now tag station
  | flush =>
    rw [Operation.apply, engine_flush hsound]
    exact h
  | request asked =>
    rw [Operation.apply, asked.engine_serve hsound]
    exact Request.complete_effect h hsound fun name hname => hdelete name (congrArg _ hname)
  | reboot => exact Engine.complete_ofHerd (recent_boot s.device)

theorem complete_delete_iff (hsound : s.engine.Sound) {name : String}
    (hname : name ∈ s.engine.herd.names) :
    ((Operation.request (.delete name)).apply s).engine.Complete ↔ s.engine.LeavesEnough name := by
  rw [Operation.apply, Request.engine_serve hsound]
  exact Engine.complete_deleted_iff hsound hname

theorem run_take_succ {operations : List Operation} {n : Nat} {operation : Operation}
    (h : operations[n]? = some operation) :
    s.run (operations.take (n + 1)) = operation.apply (s.run (operations.take n)) := by
  rw [run, List.take_add_one, h, List.foldl_append]
  rfl

/-- The index is complete all along exactly if every deletion leaves enough. -/
theorem complete_run_iff (h : s.engine.Complete) (hsound : s.engine.Sound)
    (operations : List Operation) :
    (∀ n, (s.run (operations.take n)).engine.Complete) ↔
      ∀ n name, operations[n]? = some (.request (.delete name)) →
        name ∈ (s.run (operations.take n)).engine.herd.names →
        (s.run (operations.take n)).engine.LeavesEnough name := by
  constructor
  · intro hall n name hat hname
    have hnext := hall (n + 1)
    rw [run_take_succ hat] at hnext
    exact (complete_delete_iff (sound_run hsound _) hname).1 hnext
  · intro hdelete n
    induction n with
    | zero => exact h
    | succ n ih =>
      cases hat : operations[n]? with
      | none =>
        have hle := List.getElem?_eq_none_iff.1 hat
        rwa [List.take_of_length_le (hle.trans n.le_succ), ← List.take_of_length_le hle]
      | some operation =>
        rw [run_take_succ hat]
        refine complete_apply ih (sound_run hsound _) fun name hname => ?_
        exact hdelete n name (hname ▸ hat)

end Steward

/-! ## What is shown -/

namespace Engine

/-- Whatever is asked for, a feed held that is newer than the oldest feed shown is shown as well. -/
def ShowsNewer (engine : Engine) : Prop :=
  ∀ limit, ∀ oldest ∈ (engine.recentFeeds limit).getLast?,
    (engine.herd.held.filter (oldest.minute < ·.minute)).Subperm (engine.recentFeeds limit)

/-- As many feeds are shown as are asked for, unless fewer are held. -/
def ShowsEnough (engine : Engine) : Prop :=
  ∀ limit ≤ RecentFeeds.capacity,
    min limit engine.herd.held.length ≤ (engine.recentFeeds limit).length

variable {engine : Engine} {now : Nat}

/-- What is shown is the newest part of the index, the other way round. -/
theorem Current.showsNewer (h : engine.Current now) : engine.ShowsNewer := by
  intro limit oldest holdest
  have hshown : engine.recentFeeds limit =
      (newest (min limit RecentFeeds.capacity) engine.recent).reverse := List.take_reverse
  have hcovers := h.covers.suffix h.ordered (newest_suffix (min limit RecentFeeds.capacity) _)
  rw [hshown] at holdest ⊢
  rw [List.getLast?_reverse] at holdest
  exact (hcovers oldest holdest).trans (List.reverse_perm _).symm.subperm

theorem showsEnough_iff : engine.ShowsEnough ↔ engine.Complete := by
  have hlength (limit : Nat) : (engine.recentFeeds limit).length =
      min (min limit RecentFeeds.capacity) engine.recent.length := by
    rw [recentFeeds, RecentFeeds.latest, List.length_take, List.length_reverse]
  simp only [ShowsEnough, Complete, hlength]
  constructor
  · intro h
    have hfull := h RecentFeeds.capacity le_rfl
    omega
  · intro h limit hlimit
    omega

end Engine

namespace Steward

open HerdStore

/-- In every run from an empty store whose clock does not go back and whose forms bring no feeds
along, no feed is missing that is newer than the oldest one shown. That enough feeds are shown is true
all along exactly if every deletion leaves enough. -/
theorem recentFeeds_run_iff (operations : List Operation)
    (hclock : (operations.filterMap Operation.reading?).Pairwise (· ≤ ·))
    (hforms : ∀ operation ∈ operations, operation.BringsNoFeeds) :
    let engine (n : Nat) := ((boot (Device.sound {})).run (operations.take n)).engine
    (∀ n, (engine n).ShowsNewer) ∧
      ((∀ n, (engine n).ShowsEnough) ↔
        ∀ n name, operations[n]? = some (.request (.delete name)) → name ∈ (engine n).herd.names →
          (engine n).LeavesEnough name) := by
  intro engine
  have hsound := sound_boot (Device.sound {})
  have hempty : AllStored (Cow.Past 0) {} := fun index cow hcow => nomatch hcow
  have hstart : Timely 0 (boot (Device.sound {})) :=
    ⟨hsound, current_boot hempty, allStored_boot hempty⟩
  constructor
  · intro n
    have hreadings : ((operations.take n).filterMap Operation.reading?).Pairwise (· ≤ ·) :=
      hclock.sublist ((List.take_sublist n operations).filterMap _)
    have hforms : ∀ operation ∈ operations.take n, operation.BringsNoFeeds :=
      fun operation hmem => hforms operation (List.mem_of_mem_take hmem)
    obtain ⟨now, hnow⟩ :=
      hstart.run (List.pairwise_cons.2 ⟨fun _ _ => Nat.zero_le _, hreadings⟩) hforms
    exact hnow.current.showsNewer
  · have hcomplete := Engine.complete_ofHerd (recent_boot (Device.sound {}))
    rw [← complete_run_iff hcomplete hsound operations]
    exact forall_congr' fun n => Engine.showsEnough_iff

/-- At the end of a day with 32 rations Anna eats once, and after her Berta and Clara eat all that is
unlocked, which displaces her feed from the index. Then Clara leaves. -/
def saleOfClara : List Operation :=
  [.request (.setSettingsJson "[[0],32]"),
    .request (.upsertJson "[\"Anna\",\"276000123456\",1,4,1700000000]"),
    .request (.upsertJson "[\"Berta\",\"276000123456\",2,4,1700000000]"),
    .request (.upsertJson "[\"Clara\",\"276000123456\",3,4,1700000000]"),
    .allocate 1728086340 1 0] ++
    List.replicate 32 (.allocate 1728086340 2 0) ++ List.replicate 32 (.allocate 1728086340 3 0) ++
    [.request (.delete "Clara")]

theorem readings_saleOfClara : (saleOfClara.filterMap Operation.reading?).Pairwise (· ≤ ·) := by
  decide +kernel

theorem bringsNoFeeds_saleOfClara : ∀ operation ∈ saleOfClara, operation.BringsNoFeeds := by
  simp [saleOfClara, Operation.BringsNoFeeds, Request.BringsNoFeeds]

/-- The index has forgotten Clara's feeds and does not find Anna's again. -/
theorem recentFeeds_run_iff_saleOfClara :
    let engine (n : Nat) := ((boot (Device.sound {})).run (saleOfClara.take n)).engine
    (saleOfClara.filterMap Operation.reading?).Pairwise (· ≤ ·) ∧
      (∀ operation ∈ saleOfClara, operation.BringsNoFeeds) ∧ (∀ n, (engine n).ShowsNewer) ∧
      ¬(engine 69).LeavesEnough "Clara" ∧ ¬∀ n, (engine n).ShowsEnough := by
  intro engine
  obtain ⟨hnewer, henough⟩ :=
    recentFeeds_run_iff saleOfClara readings_saleOfClara bringsNoFeeds_saleOfClara
  obtain ⟨hleaves, hknown⟩ :
      ¬(engine 69).LeavesEnough "Clara" ∧ "Clara" ∈ (engine 69).herd.names := by
    decide +kernel
  refine ⟨readings_saleOfClara, bringsNoFeeds_saleOfClara, hnewer, hleaves, fun hall => hleaves ?_⟩
  exact henough.1 hall 69 "Clara" rfl hknown

/-- Two cows are left with 33 feeds, of which 32 are shown. -/
theorem not_showsEnough_saleOfClara :
    let engine := ((boot (Device.sound {})).run saleOfClara).engine
    (saleOfClara.filterMap Operation.reading?).Pairwise (· ≤ ·) ∧
      (∀ operation ∈ saleOfClara, operation.BringsNoFeeds) ∧
      engine.herd.names = ["Anna", "Berta"] ∧ engine.herd.held.length = 33 ∧
      (engine.recentFeeds 64).length = 32 ∧ ¬engine.ShowsEnough := by
  intro engine
  obtain ⟨hnames, hheld, hshown⟩ : engine.herd.names = ["Anna", "Berta"] ∧
      engine.herd.held.length = 33 ∧ (engine.recentFeeds 64).length = 32 := by
    decide +kernel
  refine ⟨readings_saleOfClara, bringsNoFeeds_saleOfClara, hnames, hheld, hshown, ?_⟩
  intro h
  have henough := h 64 le_rfl
  rw [hheld, hshown] at henough
  exact absurd henough (by decide)

end Steward

end Fodder
