import Fodder.Proofs.Steward.Recent

/-!
# The index as a view of the histories

Index and histories are bounded and forget their oldest feeds on their own: the index when the herd
has eaten more than it holds, a history when its cow has. For every cow of the herd what is left of
one is the end of what is left of the other. A feed reaches both, a history that stands in order comes
out of the sort as it was, and with a cow both of her sides leave.
-/
namespace Fodder

namespace Engine

/-- The index has room for its entries, all of them are of cows in the herd, and those of each cow
mirror her history, which stands in the order of time. -/
structure Faithful (engine : Engine) : Prop where
  order : ∀ cow ∈ engine.herd.cows, cow.InOrder
  room : engine.recent.length ≤ RecentFeeds.capacity
  known : ∀ feed ∈ engine.recent, feed.cow ∈ engine.herd.names
  mirrors : ∀ cow ∈ engine.herd.cows, (engine.recent.ofName cow.name).Mirrors cow

variable {engine : Engine} {herd : Herd} {now slot : Nat} {cow : Cow} {feed : Feed} {name : String}

/-! ## The index made anew -/

theorem faithful_ofHerd (hrecent : engine.recent = RecentFeeds.ofHerd engine.herd)
    (hsound : engine.herd.Sound) (horder : ∀ cow ∈ engine.herd.cows, cow.InOrder) :
    engine.Faithful := by
  have hsuffix : engine.recent <:+ RecentFeeds.chronological engine.herd.held := by
    rw [hrecent]
    exact newest_suffix _ _
  refine ⟨horder, ?_, fun feed hfeed => ?_, fun cow hcow => .inl ?_⟩
  · rw [hrecent, RecentFeeds.ofHerd, length_newest]
    exact Nat.min_le_left _ _
  · have hheld := (RecentFeeds.chronological_perm engine.herd.held).subset (hsuffix.subset hfeed)
    obtain ⟨cow, hcow, given, -, rfl⟩ := RecentFeeds.mem_held.1 hheld
    exact List.mem_map_of_mem hcow
  · rw [← RecentFeeds.ofName_chronological hsound hcow (horder cow hcow)]
    exact hsuffix.filter _

/-! ## Feeds -/

theorem inOrder_recordFeed (h : ∀ cow ∈ herd.cows, cow.InOrder) (hpast : ∀ cow ∈ herd.cows, cow.Past now)
    (hminute : feed.minute.toNat = now / 60) :
    ∀ cow ∈ (herd.recordFeed slot feed).cows, cow.InOrder := by
  intro cow hcow
  obtain ⟨old, hold, rfl | rfl⟩ := Herd.exists_of_mem_recordFeed hcow
  · exact h _ hold
  · exact (h old hold).push (hpast old hold) hminute

theorem names_recordFeed (herd : Herd) (slot : Nat) (feed : Feed) :
    (herd.recordFeed slot feed).names = herd.names :=
  Herd.map_recordFeed (fun _ _ => rfl) herd slot feed

/-- The cow that was fed has one more entry and one more feed, the others are left alone. -/
theorem Faithful.recordFeed (h : engine.Faithful) (hsound : engine.Sound)
    (hpast : ∀ cow ∈ engine.herd.cows, cow.Past now) (hcow : engine.herd.cows[slot]? = some cow)
    (hminute : feed.minute.toNat = now / 60) :
    (engine.recordFeed slot cow.name feed).Faithful := by
  have hrecent := engine.recent_recordFeed slot feed (hsound.fits cow (List.mem_of_getElem? hcow))
  have hsuffix := newest_suffix RecentFeeds.capacity
    (engine.recent ++ [RecentFeeds.entry cow.name feed])
  refine ⟨inOrder_recordFeed h.order hpast hminute, ?_, fun other hother => ?_,
    fun other hother => ?_⟩
  · rw [hrecent, length_newest]
    exact Nat.min_le_left _ _
  · rw [hrecent] at hother
    rw [Engine.recordFeed, names_recordFeed]
    rcases List.mem_append.1 (hsuffix.subset hother) with hother | hother
    · exact h.known other hother
    · obtain rfl := List.mem_singleton.1 hother
      exact List.mem_map_of_mem (List.mem_of_getElem? hcow)
  · obtain ⟨i, hi⟩ := List.mem_iff_getElem?.1 hother
    rw [Engine.recordFeed, Herd.getElem?_recordFeed, Option.map_eq_some_iff] at hi
    obtain ⟨old, hold, rfl⟩ := hi
    have hentries := hsuffix.filter (·.cow = old.name)
    rw [List.filter_append] at hentries
    rw [hrecent]
    split_ifs with hslot
    · subst hslot
      obtain rfl := Option.some.inj (hold.symm.trans hcow)
      have hpushed := (h.mirrors old (List.mem_of_getElem? hold)).push feed
      refine hpushed.suffix ?_
      simpa [RecentFeeds.ofName, RecentFeeds.entry] using hentries
    · -- The new entry is not under the name of another cow; old entries may be displaced.
      have hne : cow.name ≠ old.name := fun hsame =>
        hslot (hsound.herd.name_inj hcow hold hsame)
      refine (h.mirrors old (List.mem_of_getElem? hold)).suffix ?_
      simpa [RecentFeeds.ofName, RecentFeeds.entry, hne] using hentries

theorem Faithful.allocate (h : engine.Faithful) (hsound : engine.Sound)
    (hpast : ∀ cow ∈ engine.herd.cows, cow.Past now) (tag : UInt16) (station : UInt8) :
    (engine.allocate now tag station).2.Faithful := by
  rcases engine.allocate_cases now tag station with
    hsame | ⟨slot, cow, minute, hcow, hminute, hnoted⟩
  · rw [hsame]
    exact h
  · rw [hnoted]
    exact h.recordFeed hsound hpast hcow hminute

/-! ## Requests -/

theorem Faithful.flushed (h : engine.Faithful) : engine.flushed.Faithful :=
  ⟨h.order, h.room, h.known, h.mirrors⟩

theorem inOrder_upsert {placed : Herd.Placed} (h : ∀ cow ∈ herd.cows, cow.InOrder)
    (hfeeds : cow.feeds = []) (hok : herd.upsert cow = .ok placed) :
    ∀ cow ∈ placed.herd.cows, cow.InOrder := by
  intro other hother
  rw [Cow.InOrder]
  rcases feeds_upsert hfeeds hok other hother with hnone | ⟨old, hold, hsame⟩
  · rw [hnone]
    exact List.Pairwise.nil
  · rw [hsame]
    exact h old hold

theorem Faithful.upserted (h : engine.Faithful) (hsound : engine.Sound) (hfeeds : cow.feeds = []) :
    (engine.upserted cow).Faithful := by
  unfold Engine.upserted
  cases hupsert : engine.herd.upsert cow with
  | error error => exact h.flushed
  | ok placed =>
    exact faithful_ofHerd rfl (hsound.herd.upsert hupsert) (inOrder_upsert h.order hfeeds hupsert)

/-- Names are unique, so no other cow has entries under the name that is forgotten. -/
theorem Faithful.deleted (h : engine.Faithful) (hsound : engine.Sound) (name : String) :
    (engine.deleted name).Faithful := by
  unfold Engine.deleted
  cases hremove : engine.herd.remove name with
  | error error => exact h.flushed
  | ok removed =>
    obtain ⟨rest, vacated⟩ := removed
    have hunbinds := hsound.herd.unbinds_remove hremove
    have hstays : ∀ cow ∈ rest.cows, cow ∈ engine.herd.cows ∧ cow.name ≠ name := by
      intro cow hcow
      obtain ⟨index, leaving, -, -, -, rfl, -⟩ := Herd.remove_eq_ok hremove
      refine ⟨Herd.mem_of_mem_fillFromEnd hcow, ?_⟩
      rintro rfl
      have hgone := hunbinds.lookup cow.name
      rw [if_pos rfl, Herd.get?_eq_none_iff] at hgone
      exact hgone (List.mem_map_of_mem hcow)
    refine ⟨fun cow hcow => h.order cow (hstays cow hcow).1, ?_, fun feed hfeed => ?_,
      fun cow hcow => ?_⟩
    · exact (List.length_filter_le _ _).trans h.room
    · obtain ⟨hfeed, hne⟩ := List.mem_filter.1 hfeed
      by_contra hunknown
      have hlookup := hunbinds.lookup feed.cow
      rw [if_neg (by simpa using hne), Herd.get?_eq_none_iff.2 hunknown, eq_comm,
        Herd.get?_eq_none_iff] at hlookup
      exact hlookup (h.known feed hfeed)
    · obtain ⟨hcow, hne⟩ := hstays cow hcow
      rw [RecentFeeds.ofName_forget hne]
      exact h.mirrors cow hcow

theorem faithful_cleared (engine : Engine) : engine.cleared.Faithful :=
  faithful_ofHerd rfl Herd.sound_empty fun _ hcow => absurd hcow List.not_mem_nil

theorem Faithful.scheduled (h : engine.Faithful) (settings : Settings) :
    (engine.scheduled settings).Faithful := by
  unfold Engine.scheduled
  cases settings.check with
  | error error => exact h
  | ok checked => exact ⟨h.order, h.room, h.known, h.mirrors⟩

end Engine

namespace Steward

open HerdStore

/-! ## Operations -/

theorem Request.faithful_effect {engine : Engine} (h : engine.Faithful) (hsound : engine.Sound)
    {request : Request} (hform : request.BringsNoFeeds) : (request.effect engine).Faithful := by
  refine Request.holds_effect h request ?_ ?_ engine.faithful_cleared h.scheduled
  · intro cow hfeeds
    exact h.upserted hsound (hfeeds hform)
  · intro name _
    exact h.deleted hsound name

/-- What a start finds in the slots stands in order as well. -/
structure Traced (now : Nat) (s : Steward Unit) : Prop where
  timely : Timely now s
  faithful : s.engine.Faithful
  stored : AllStored Cow.InOrder s.device.flash

variable {s : Steward Unit} {now later : Nat}

theorem Traced.mono (h : Traced now s) (hle : now ≤ later) : Traced later s :=
  ⟨h.timely.mono hle, h.faithful, h.stored⟩

theorem faithful_boot {device : Device Unit} (h : AllStored Cow.InOrder device.flash) :
    (boot device).engine.Faithful := by
  refine Engine.faithful_ofHerd (recent_boot device) (sound_boot device).herd fun cow hcow => ?_
  rw [boot_herd] at hcow
  exact allStored_found h cow ((Herd.cows_ofRecords_sublist _).subset hcow)

theorem Traced.faithful_apply (h : Traced now s) {operation : Operation}
    (hform : operation.BringsNoFeeds) (hclock : ∀ reading ∈ operation.reading?, reading = now) :
    (operation.apply s).engine.Faithful := by
  cases operation with
  | allocate reading tag station =>
    obtain rfl := hclock reading rfl
    exact h.faithful.allocate h.timely.sound h.timely.current.herd tag station
  | flush =>
    rw [Operation.apply, engine_flush h.timely.sound]
    exact h.faithful.flushed
  | request asked =>
    rw [Operation.apply, asked.engine_serve h.timely.sound]
    exact Request.faithful_effect h.faithful h.timely.sound hform
  | reboot => exact faithful_boot h.stored

theorem Traced.apply (h : Traced now s) {operation : Operation} (hform : operation.BringsNoFeeds)
    (hclock : ∀ reading ∈ operation.reading?, reading = now) : Traced now (operation.apply s) := by
  have hfaithful := h.faithful_apply hform hclock
  exact ⟨h.timely.apply hform hclock, hfaithful,
    allStored_apply h.timely.sound h.stored h.faithful.order operation hfaithful.order⟩

theorem Traced.run (h : Traced now s) {operations : List Operation}
    (hclock : (now :: operations.filterMap Operation.reading?).Pairwise (· ≤ ·))
    (hforms : ∀ operation ∈ operations, operation.BringsNoFeeds) :
    ∃ later, Traced later (s.run operations) :=
  run_of_clock Traced Traced.mono (fun h => h.apply) h hclock hforms

end Steward

/-! ## What is shown -/

namespace Steward

end Steward

end Fodder
