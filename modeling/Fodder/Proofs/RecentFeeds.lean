import Fodder.Proofs.Allocation
import Fodder.Proofs.Herd.Names

/-!
# The index of recent feeds

Entries stand in the order of time. What makes them a view of the histories is that no history has a
feed newer than the oldest entry that is not an entry too. This outlasts every loss of the oldest
entries, the loss of all entries of a cow that leaves, and the arrival of a feed that is not older than
any other. Of a single cow, entries and history end alike, since both take up the same feeds and the
sort that makes the index anew does not change the order of a history.
-/
namespace Fodder

/-- The feeds in all histories, each with the name of its cow. -/
def Herd.held (herd : Herd) : RecentFeeds := herd.cows.flatMap RecentFeeds.ofCow

/-- No feed of the cow lies after an instant, given in seconds since the epoch. -/
def Cow.Past (now : Nat) (cow : Cow) : Prop := ∀ feed ∈ cow.feeds, feed.minute.toNat ≤ now / 60

theorem Cow.Past.mono {now later : Nat} {cow : Cow} (h : cow.Past now) (hle : now ≤ later) :
    cow.Past later :=
  fun feed hfeed => (h feed hfeed).trans (Nat.div_le_div_right hle)

/-- The history of the cow stands in the order of time. -/
def Cow.InOrder (cow : Cow) : Prop := cow.feeds.Pairwise fun a b => a.minute ≤ b.minute

/-- A feed that no other is newer than keeps the order, also where it displaces the oldest. -/
theorem Cow.InOrder.push {now : Nat} {cow : Cow} {feed : Feed} (h : cow.InOrder) (hpast : cow.Past now)
    (hminute : feed.minute.toNat = now / 60) :
    InOrder { cow with feeds := cow.feeds.push feed } := by
  refine List.Pairwise.sublist (newest_suffix _ _).sublist ?_
  refine List.pairwise_append.2 ⟨h, List.pairwise_singleton _ _, fun other hother last hlast => ?_⟩
  obtain rfl := List.mem_singleton.1 hlast
  rw [UInt32.le_iff_toNat_le, hminute]
  exact hpast other hother

namespace RecentFeeds

variable {feeds held rest : RecentFeeds} {feed oldest : RecentFeed} {name : String}

def Ordered (feeds : RecentFeeds) : Prop := feeds.Pairwise fun a b => a.minute ≤ b.minute

/-- The feeds that are newer than one of them. -/
def newer (oldest : RecentFeed) (feeds : RecentFeeds) : RecentFeeds :=
  feeds.filter fun feed => oldest.minute < feed.minute

/-- Every feed held that is newer than the oldest entry is an entry, as often as it is held. -/
def Covers (feeds held : RecentFeeds) : Prop :=
  ∀ oldest ∈ feeds.head?, (newer oldest held).Subperm feeds

/-- The entries of one cow. -/
def ofName (feeds : RecentFeeds) (name : String) : RecentFeeds := feeds.filter (·.cow = name)

/-- The entries of a cow are the newest part of her history, or the other way round, which takes a
history without room for more. -/
def Mirrors (entries : RecentFeeds) (cow : Cow) : Prop :=
  entries <:+ ofCow cow ∨ ofCow cow <:+ entries ∧ cow.feeds.length = FeedHistory.capacity

/-! ## Order -/

theorem insert_eq_orderedInsert (feed : RecentFeed) (feeds : RecentFeeds) :
    insert feed feeds = feeds.orderedInsert (fun a b => a.minute ≤ b.minute) feed := by
  induction feeds with
  | nil => rfl
  | cons other rest ih => rw [insert, ih, List.orderedInsert_cons]

theorem chronological_eq_insertionSort (feeds : RecentFeeds) :
    chronological feeds = feeds.insertionSort fun a b => a.minute ≤ b.minute := by
  induction feeds with
  | nil => rfl
  | cons feed rest ih =>
    rw [List.insertionSort_cons, ← ih, ← insert_eq_orderedInsert]
    rfl

theorem chronological_perm (feeds : RecentFeeds) : (chronological feeds).Perm feeds := by
  rw [chronological_eq_insertionSort]
  exact List.perm_insertionSort _ feeds

theorem ordered_chronological (feeds : RecentFeeds) : (chronological feeds).Ordered := by
  have htotal : Std.Total fun a b : RecentFeed => a.minute ≤ b.minute :=
    ⟨fun a b => UInt32.le_total a.minute b.minute⟩
  have htrans : IsTrans RecentFeed fun a b => a.minute ≤ b.minute := ⟨fun _ _ _ => UInt32.le_trans⟩
  rw [chronological_eq_insertionSort]
  exact List.pairwise_insertionSort _ feeds

theorem Ordered.suffix (h : feeds.Ordered) (hrest : rest <:+ feeds) : rest.Ordered :=
  h.sublist hrest.sublist

/-- A feed that no other is newer than comes last. -/
theorem Ordered.concat (h : feeds.Ordered) (hnew : ∀ other ∈ feeds, other.minute ≤ feed.minute) :
    Ordered (feeds ++ [feed]) := by
  refine List.pairwise_append.2 ⟨h, List.pairwise_singleton _ _, fun other hother last hlast => ?_⟩
  obtain rfl := List.mem_singleton.1 hlast
  exact hnew other hother

/-! ## Feeds that are held -/

theorem mem_held {herd : Herd} : feed ∈ herd.held ↔
    ∃ cow ∈ herd.cows, ∃ given ∈ cow.feeds, entry cow.name given = feed := by
  simp only [Herd.held, List.mem_flatMap, ofCow, List.mem_map]

theorem minute_le_of_mem_held {herd : Herd} {now : Nat} (h : ∀ cow ∈ herd.cows, cow.Past now)
    (hfeed : feed ∈ herd.held) : feed.minute.toNat ≤ now / 60 := by
  obtain ⟨cow, hcow, given, hgiven, rfl⟩ := mem_held.1 hfeed
  exact h cow hcow given hgiven

/-- A feed of a cow adds one to the feeds held, and her history may lose its oldest. -/
theorem held_recordFeed_subperm {herd : Herd} {slot : Nat} {cow : Cow}
    (hcow : herd.cows[slot]? = some cow) (given : Feed) :
    (herd.recordFeed slot given).held.Subperm (herd.held ++ [entry cow.name given]) := by
  obtain ⟨hlt, hat⟩ := List.getElem?_eq_some_iff.1 hcow
  obtain ⟨front, other, back, hcows, hlength, hmodified⟩ :=
    List.exists_of_modify (fun cow => { cow with feeds := cow.feeds.push given : Cow }) hlt
  obtain rfl : other = cow := by
    rw [← hat]
    simp [hcows, ← hlength]
  have hpushed : ((other.feeds.push given).map (entry other.name)).Sublist
      (ofCow other ++ [entry other.name given]) := by
    rw [ofCow, ← List.map_singleton, ← List.map_append]
    exact (newest_suffix _ _).sublist.map _
  have hmoved : (ofCow other ++ [entry other.name given] ++ back.flatMap ofCow).Perm
      (ofCow other ++ back.flatMap ofCow ++ [entry other.name given]) := by
    rw [List.append_assoc, List.append_assoc]
    exact List.perm_append_comm.append_left _
  rw [Herd.held, Herd.recordFeed, hmodified, Herd.held, hcows]
  simp only [List.flatMap_append, List.flatMap_cons, List.append_assoc]
  rw [List.subperm_append_left, ← List.append_assoc]
  exact (hpushed.append_right _).subperm.trans hmoved.subperm

theorem filter_ofCow (cow : Cow) (p : String → Bool) :
    (ofCow cow).filter (fun feed => p feed.cow) = if p cow.name then ofCow cow else [] := by
  have hname : ∀ feed ∈ ofCow cow, feed.cow = cow.name := by
    simp [ofCow, entry]
  split_ifs with hp
  · rw [List.filter_eq_self]
    intro feed hfeed
    rwa [hname feed hfeed]
  · rw [List.filter_eq_nil_iff]
    intro feed hfeed
    rwa [hname feed hfeed]

/-- The feeds held for some names are those of the cows of these names. -/
theorem filter_held (herd : Herd) (p : String → Bool) : herd.held.filter (fun feed => p feed.cow) =
    (herd.cows.filter fun cow => p cow.name).flatMap ofCow := by
  rw [Herd.held, List.filter_flatMap]
  induction herd.cows with
  | nil => rfl
  | cons cow cows ih =>
    rw [List.flatMap_cons, filter_ofCow, ih, List.filter_cons]
    split_ifs <;> rfl

/-- When a cow leaves, the feeds of all others are held still. -/
theorem held_fillFromEnd_perm {herd : Herd} (h : herd.Sound) {index : Nat} {cow : Cow}
    (hcow : herd.cows[index]? = some cow) :
    (herd.fillFromEnd index).held.Perm (herd.held.filter (·.cow ≠ cow.name)) := by
  have hothers : (herd.fillFromEnd index).cows.Perm (herd.cows.filter (·.name ≠ cow.name)) := by
    have hnodup := List.Nodup.of_map _ h.names
    rw [List.perm_ext_iff_of_nodup (List.Nodup.of_map _ (h.fillFromEnd index).names) (hnodup.filter _)]
    intro other
    rw [Herd.mem_fillFromEnd_iff hcow, h.exists_ne_place_iff hcow, List.mem_filter, decide_eq_true_iff]
  rw [filter_held herd fun name => name ≠ cow.name]
  exact hothers.flatMap_right ofCow

/-! ## Covering -/

theorem minute_le_of_head? (ho : feeds.Ordered) (hhead : oldest ∈ feeds.head?) (hfeed : feed ∈ feeds) :
    oldest.minute ≤ feed.minute := by
  cases feeds with
  | nil => cases hhead
  | cons first rest =>
    obtain rfl : first = oldest := by simpa using hhead
    rcases List.mem_cons.1 hfeed with rfl | hfeed
    · exact UInt32.le_refl _
    · exact (List.pairwise_cons.1 ho).1 feed hfeed

theorem newer_newer (hle : oldest.minute ≤ feed.minute) (feeds : RecentFeeds) :
    newer feed (newer oldest feeds) = newer feed feeds := by
  rw [newer, newer, List.filter_filter]
  refine List.filter_congr fun other _ => ?_
  have hlt : feed.minute < other.minute → oldest.minute < other.minute :=
    UInt32.lt_of_le_of_lt hle
  simpa using hlt

theorem covers_of_perm (h : feeds.Perm held) : feeds.Covers held :=
  fun _ _ => List.filter_sublist.subperm.trans h.symm.subperm

/-- What is newer than any entry is covered in the same way. -/
theorem Covers.subperm_newer (h : feeds.Covers held) (ho : feeds.Ordered) (hfeed : feed ∈ feeds) :
    (newer feed held).Subperm (newer feed feeds) := by
  obtain ⟨oldest, hhead⟩ := Option.isSome_iff_exists.1 (List.isSome_head?.2 (List.ne_nil_of_mem hfeed))
  rw [← newer_newer (minute_le_of_head? ho hhead hfeed) held]
  exact (h oldest hhead).filter _

theorem Covers.suffix (h : feeds.Covers held) (ho : feeds.Ordered) (hrest : rest <:+ feeds) :
    rest.Covers held := by
  intro oldest hhead
  have hmem : oldest ∈ rest := List.mem_of_mem_head? hhead
  obtain ⟨front, rfl⟩ := hrest
  have hfront : newer oldest front = [] := by
    refine List.filter_eq_nil_iff.2 fun other hother => ?_
    simpa using (List.pairwise_append.1 ho).2.2 other hother oldest hmem
  have hafter := h.subperm_newer ho (List.mem_append_right front hmem)
  rw [newer, newer, List.filter_append] at hafter
  rw [newer] at hfront
  rw [hfront, List.nil_append] at hafter
  exact hafter.trans List.filter_sublist.subperm

theorem Covers.forget (h : feeds.Covers held) (ho : feeds.Ordered) (name : String) :
    (feeds.forget name).Covers (held.filter (·.cow ≠ name)) := by
  intro oldest hhead
  have hmem : oldest ∈ feeds := List.mem_of_mem_filter (List.mem_of_mem_head? hhead)
  have hafter := ((h.subperm_newer ho hmem).trans List.filter_sublist.subperm).filter (·.cow ≠ name)
  rwa [newer, List.filter_comm] at hafter

/-- A feed that no other is newer than is taken up, also by an index without entries. -/
theorem Covers.concat (h : feeds.Covers held) {later : RecentFeeds}
    (hheld : later.Subperm (held ++ [feed])) (hnew : ∀ other ∈ later, other.minute ≤ feed.minute) :
    Covers (feeds ++ [feed]) later := by
  intro oldest hhead
  cases feeds with
  | nil =>
    obtain rfl : feed = oldest := by simpa using hhead
    have hnone : newer feed later = [] :=
      List.filter_eq_nil_iff.2 fun other hother => by simpa using hnew other hother
    rw [hnone]
    exact List.nil_subperm
  | cons first rest =>
    obtain rfl : first = oldest := by simpa using hhead
    refine (hheld.filter _).trans ?_
    rw [List.filter_append]
    exact (h first rfl).append List.filter_sublist.subperm

/-! ## The entries of one cow -/

theorem filter_name_eq {herd : Herd} (h : herd.Sound) {cow : Cow} (hcow : cow ∈ herd.cows) :
    herd.cows.filter (·.name = cow.name) = [cow] := by
  have hnodup := List.Nodup.of_map _ h.names
  rw [← List.perm_singleton, List.perm_ext_iff_of_nodup (hnodup.filter _) (List.nodup_singleton cow)]
  intro other
  rw [List.mem_filter, decide_eq_true_iff, ← h.get?_eq_some_iff, h.get?_eq_some_iff.2 ⟨hcow, rfl⟩,
    Option.some.injEq, List.mem_singleton, eq_comm]

theorem ofName_ofCow (cow : Cow) : (ofCow cow).ofName cow.name = ofCow cow := by
  rw [ofName, filter_ofCow cow fun name => name = cow.name, if_pos (decide_eq_true rfl)]

theorem ofName_held {herd : Herd} (h : herd.Sound) {cow : Cow} (hcow : cow ∈ herd.cows) :
    herd.held.ofName cow.name = ofCow cow := by
  rw [ofName, filter_held herd fun name => name = cow.name, filter_name_eq h hcow,
    List.flatMap_singleton]

/-- The sort is stable: it leaves a history that stands in order as it is. -/
theorem ofName_chronological {herd : Herd} (h : herd.Sound) {cow : Cow} (hcow : cow ∈ herd.cows)
    (horder : cow.InOrder) : (chronological herd.held).ofName cow.name = ofCow cow := by
  have hheld := ofName_held h hcow
  have hsorted : (ofCow cow).Sublist (chronological herd.held) := by
    rw [chronological_eq_insertionSort]
    refine List.sublist_insertionSort (List.pairwise_map.2 horder) ?_
    rw [← hheld]
    exact List.filter_sublist
  have hkept : (ofCow cow).Sublist ((chronological herd.held).ofName cow.name) := by
    rw [← ofName_ofCow cow]
    exact hsorted.filter _
  have hlength := ((chronological_perm herd.held).filter (·.cow = cow.name)).length_eq
  exact (hkept.eq_of_length (hheld ▸ hlength.symm)).symm

theorem ofName_forget {other : String} (hne : other ≠ name) :
    (feeds.forget name).ofName other = feeds.ofName other := by
  rw [ofName, forget, List.filter_filter]
  refine List.filter_congr fun feed _ => ?_
  grind

theorem Mirrors.suffix {entries kept : RecentFeeds} {cow : Cow} (h : Mirrors entries cow)
    (hkept : kept <:+ entries) : Mirrors kept cow := by
  rcases h with h | ⟨h, hfull⟩
  · exact .inl (hkept.trans h)
  · rcases List.suffix_or_suffix_of_suffix hkept h with hsuffix | hsuffix
    · exact .inl hsuffix
    · exact .inr ⟨hsuffix, hfull⟩

/-- Index and history take up the same feed. -/
theorem Mirrors.push {entries : RecentFeeds} {cow : Cow} (h : Mirrors entries cow) (given : Feed) :
    Mirrors (entries ++ [entry cow.name given]) { cow with feeds := cow.feeds.push given } := by
  have hpushed : ofCow { cow with feeds := cow.feeds.push given } <:+
      ofCow cow ++ [entry cow.name given] := by
    rw [ofCow, ofCow, ← List.map_singleton, ← List.map_append]
    exact (newest_suffix _ _).map _
  have hfilled : FeedHistory.capacity ≤ cow.feeds.length →
      (cow.feeds.push given).length = FeedHistory.capacity := by
    intro hle
    rw [FeedHistory.push, remember, length_newest, List.length_append]
    omega
  rcases h with h | ⟨h, hfull⟩
  · have hentries : entries ++ [entry cow.name given] <:+ ofCow cow ++ [entry cow.name given] :=
      List.suffix_append_self_iff.2 h
    rcases Nat.lt_or_ge cow.feeds.length FeedHistory.capacity with hroom | hroom
    · have hall : cow.feeds.push given = cow.feeds ++ [given] :=
        newest_of_length_le (by rwa [List.length_append, List.length_singleton])
      left
      rwa [ofCow, hall, List.map_append]
    · -- The history displaces its oldest feed, so it may be the shorter one from now on.
      rcases List.suffix_or_suffix_of_suffix hentries hpushed with hsuffix | hsuffix
      · exact .inl hsuffix
      · exact .inr ⟨hsuffix, hfilled hroom⟩
  · exact .inr ⟨hpushed.trans (List.suffix_append_self_iff.2 h), hfilled hfull.ge⟩

end RecentFeeds

end Fodder
