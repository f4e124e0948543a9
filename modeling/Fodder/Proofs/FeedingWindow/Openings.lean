import Fodder.Proofs.FeedingWindow

/-!
# Windows between openings

A schedule says at which instants windows open: on every day, at its reset hours. Instants are whole
seconds relative to the epoch, and those before it count as well. The window of an instant is the
stretch from the latest opening at or before it to the next one, if minutes since the epoch can
express where it starts; so two instants share a window as long as none opens between them.
-/
namespace Fodder

/-- Whether a window opens at an instant. -/
def Settings.OpensAt (s : Settings) (t : ℤ) : Prop :=
  ∃ hour ∈ s.resets, t % 86400 = 3600 * hour.toNat

namespace FeedingWindow

/-! ## Spans in the circle of a day -/

/-- A stretch of hours from one reset hour to the next, which may be that of the following day. -/
structure Stretch (resets : List UInt8) (opens hours : Nat) : Prop where
  early : opens < 24
  opened : ∃ hour ∈ resets, hour.toNat = opens
  closed : ∃ hour ∈ resets, opens + hours = hour.toNat ∨ opens + hours = hour.toNat + 24
  today : ∀ hour ∈ resets, hour.toNat ≤ opens ∨ opens + hours ≤ hour.toNat
  tomorrow : ∀ hour ∈ resets, opens + hours ≤ hour.toNat + 24
  pos : 0 < hours

/-- A span ends at the least later reset hour, or at `first` when there is none. -/
theorem closes_of_mem_zip {first : UInt8} {resets : List UInt8} {span : UInt8 × UInt8}
    (sorted : resets.Pairwise (· < ·)) (h : span ∈ resets.zip (resets.drop 1 ++ [first])) :
    (span.2 ∈ resets ∧ span.1 < span.2 ∧ ∀ hour ∈ resets, hour ≤ span.1 ∨ span.2 ≤ hour) ∨
      (span.2 = first ∧ ∀ hour ∈ resets, hour ≤ span.1) := by
  induction resets with
  | nil => simp at h
  | cons a rest ih =>
    obtain ⟨before, sorted⟩ := List.pairwise_cons.1 sorted
    cases rest with
    | nil =>
      right
      obtain rfl : span = (a, first) := by simpa using h
      simp
    | cons b rest =>
      have hzip : span = (a, b) ∨ span ∈ (b :: rest).zip ((b :: rest).drop 1 ++ [first]) := by
        simpa using h
      rcases hzip with rfl | hlater
      · left
        have hlt := before b List.mem_cons_self
        refine ⟨by simp, hlt, List.forall_mem_cons.2 ⟨.inl (UInt8.le_refl a), fun hour hhour => ?_⟩⟩
        right
        rcases List.mem_cons.1 hhour with rfl | hhour
        · exact UInt8.le_refl _
        · exact UInt8.le_of_lt ((List.pairwise_cons.1 sorted).1 hour hhour)
      · have hopens : a ≤ span.1 := UInt8.le_of_lt (before _ (List.of_mem_zip hlater).1)
        rcases ih sorted hlater with ⟨hmem, hlt, hnext⟩ | ⟨hfirst, hall⟩
        · left
          exact ⟨List.mem_cons_of_mem a hmem, hlt, List.forall_mem_cons.2 ⟨.inl hopens, hnext⟩⟩
        · exact .inr ⟨hfirst, List.forall_mem_cons.2 ⟨hopens, hall⟩⟩

variable {s : Settings} {now later : Nat} {window other : FeedingWindow}

theorem stretch_of_mem_spans (valid : s.Valid) {span : UInt8 × UInt8} (h : span ∈ spans s.resets) :
    Stretch s.resets span.1.toNat (lengthHours span.1 span.2) := by
  obtain ⟨first, rest, hs⟩ := List.exists_cons_of_ne_nil valid.nonempty
  have hmem := mem_spans_left h
  have hopens := valid.hours _ hmem
  have hspan := h
  rw [hs, spans_eq, ← hs] at hspan
  rcases closes_of_mem_zip (Settings.pairwise_of_ascending valid.ascending) hspan with
    ⟨hcloses, hlt, hnext⟩ | ⟨hcloses, hall⟩
  · have hlength := lengthHours_of_lt hlt
    have hlt := UInt8.lt_iff_toNat_lt.1 hlt
    have hlast := valid.hours _ hcloses
    refine ⟨by omega, ⟨_, hmem, rfl⟩, ⟨_, hcloses, .inl hlength⟩, fun hour hhour => ?_,
      fun hour hhour => by omega, by omega⟩
    rw [hlength]
    exact (hnext hour hhour).imp UInt8.le_iff_toNat_le.1 UInt8.le_iff_toNat_le.1
  · have hlength := lengthHours_of_closes valid hs h hcloses
    have hfirst : ∀ hour ∈ s.resets, first.toNat ≤ hour.toNat := by
      intro hour hhour
      have sorted := Settings.pairwise_of_ascending valid.ascending
      rw [hs] at sorted hhour
      rcases List.mem_cons.1 hhour with rfl | hhour
      · exact le_rfl
      · exact (UInt8.lt_iff_toNat_lt.1 ((List.pairwise_cons.1 sorted).1 hour hhour)).le
    refine ⟨by omega, ⟨_, hmem, rfl⟩, ⟨first, by simp [hs], .inr hlength⟩, fun hour hhour => ?_,
      fun hour hhour => ?_, by omega⟩
    · exact .inl (UInt8.le_iff_toNat_le.1 (hall hour hhour))
    · have := hfirst hour hhour
      omega

/-! ## Openings in time -/

section Stretch

variable {day : ℤ} {opens hours : Nat}

theorem Stretch.hours_le (h : Stretch s.resets opens hours) : hours ≤ 24 := by
  obtain ⟨hour, hmem, hopens⟩ := h.opened
  have := h.tomorrow hour hmem
  omega

theorem Stretch.opensAt (h : Stretch s.resets opens hours) (day : ℤ) :
    s.OpensAt (86400 * day + 3600 * opens) := by
  obtain ⟨hour, hmem, rfl⟩ := h.opened
  have := h.early
  exact ⟨hour, hmem, by omega⟩

/-- After an opening the next one follows when its stretch is over. -/
theorem Stretch.isLeast (h : Stretch s.resets opens hours) (valid : s.Valid) (day : ℤ) :
    IsLeast {t | s.OpensAt t ∧ 86400 * day + 3600 * opens < t}
      (86400 * day + 3600 * opens + 3600 * hours) := by
  have hearly := h.early
  have hpos := h.pos
  constructor
  · obtain ⟨hour, hmem, hends⟩ := h.closed
    have hlast := valid.hours hour hmem
    refine ⟨⟨hour, hmem, ?_⟩, by omega⟩
    rcases hends with hends | hends
    · omega
    · omega
  · rintro t ⟨⟨hour, hmem, htime⟩, hlater⟩
    have htoday := h.today hour hmem
    have htomorrow := h.tomorrow hour hmem
    rcases htoday with htoday | htoday
    · omega
    · omega

/-- While its stretch lasts, an opening is the latest one. -/
theorem Stretch.isGreatest (h : Stretch s.resets opens hours) (valid : s.Valid)
    (hopened : 86400 * day + 3600 * opens ≤ now)
    (hopen : now < 86400 * day + 3600 * opens + 3600 * hours) :
    IsGreatest {t : ℤ | s.OpensAt t ∧ t ≤ now} (86400 * day + 3600 * opens) := by
  refine ⟨⟨h.opensAt day, hopened⟩, ?_⟩
  rintro t ⟨hopens, hreached⟩
  by_contra hlater
  have hnext := (h.isLeast valid day).2 ⟨hopens, not_le.1 hlater⟩
  omega

end Stretch

/-! ## The window of an instant -/

/-- A window that starts with an opening, unless its first minute cannot be expressed. -/
def startingAt (opened : ℤ) (hours : Nat) : Except AllocationError FeedingWindow :=
  if 0 ≤ opened ∧ opened / 60 ≤ 2 ^ 32 - 1 then .ok ⟨(opened / 60).toNat, hours⟩
  else .error .invalidWindow

theorem opening_eq_startingAt (day : Nat) {span : UInt8 × UInt8} (h : span.1.toNat ≤ 23) :
    opening day span =
      startingAt (86400 * (day : ℤ) + 3600 * span.1.toNat) (lengthHours span.1 span.2) := by
  have hlimit : minuteLimit = 4294967296 := rfl
  have hstart : (86400 * (day : ℤ) + 3600 * span.1.toNat) / 60 =
      (day * 1440 + span.1.toNat * 60 : Nat) := by
    omega
  unfold opening startingAt
  rw [hstart, Int.toNat_natCast]
  dsimp only
  split_ifs with hlate hearly hearly
  · omega
  · rfl
  · rfl
  · omega

/-- The window found for an instant is that of a span of some day that is still open. -/
theorem exists_containing_eq (valid : s.Valid) (now : Nat) :
    ∃ (day : ℤ) (opens hours : Nat), Stretch s.resets opens hours ∧
      86400 * day + 3600 * opens ≤ now ∧ now < 86400 * day + 3600 * opens + 3600 * hours ∧
      containing s now = startingAt (86400 * day + 3600 * opens) hours := by
  have hhour : now / 3600 % 24 < 24 := Nat.mod_lt _ (by decide)
  unfold containing
  dsimp only
  split
  · rename_i span hspan
    have hmem : span ∈ spans s.resets := List.mem_of_mem_filter (List.mem_of_getLast? hspan)
    have hopen := open_of_reached valid hhour hspan
    have hopening := opening_eq_startingAt (now / 86400) (valid.hours _ (mem_spans_left hmem))
    exact ⟨(now / 86400 : Nat), _, _, stretch_of_mem_spans valid hmem, by omega, by omega, hopening⟩
  · rename_i hspan
    obtain ⟨span, hlast⟩ := exists_last_span valid
    have hmem := List.mem_of_getLast? hlast
    have hopen := open_of_unreached valid hspan hlast
    have hopens := valid.hours _ (mem_spans_left hmem)
    refine ⟨(now / 86400 : Nat) - 1, _, _, stretch_of_mem_spans valid hmem, by omega, by omega, ?_⟩
    rw [hlast]
    dsimp only
    split_ifs with hday
    · unfold startingAt
      rw [if_neg (by omega)]
    · rw [opening_eq_startingAt _ hopens]
      congr 1
      omega

/-- The window that an instant lies in starts with an opening and ends with the next one. -/
structure Frames (s : Settings) (now : Nat) (opened : ℤ) (window : FeedingWindow) : Prop where
  start : (window.start : ℤ) = opened / 60
  next : IsLeast {t | s.OpensAt t ∧ opened < t} (opened + 3600 * window.hours)
  within : opened ≤ now ∧ now < opened + 3600 * window.hours
  hours : 1 ≤ window.hours ∧ window.hours ≤ 24

/-- A window is found or not by the latest opening alone. -/
theorem exists_latest_opening (valid : s.Valid) (now : Nat) :
    ∃ opened : ℤ, IsGreatest {t : ℤ | s.OpensAt t ∧ t ≤ now} opened ∧
      ((0 ≤ opened ∧ opened / 60 ≤ 2 ^ 32 - 1 ∧
          ∃ window, containing s now = .ok window ∧ Frames s now opened window) ∨
        (¬(0 ≤ opened ∧ opened / 60 ≤ 2 ^ 32 - 1) ∧
          containing s now = .error .invalidWindow)) := by
  obtain ⟨day, opens, hours, hstretch, hopened, hopen, heq⟩ := exists_containing_eq valid now
  refine ⟨_, hstretch.isGreatest valid hopened hopen, ?_⟩
  unfold startingAt at heq
  split_ifs at heq with hrange
  · left
    refine ⟨hrange.1, hrange.2, _, heq, ?_, hstretch.isLeast valid day, ⟨hopened, hopen⟩, ?_⟩
    · exact Int.toNat_of_nonneg (by omega)
    · exact ⟨hstretch.pos, hstretch.hours_le⟩
  · exact .inr ⟨hrange, heq⟩

/-- An opening falls on a whole minute. -/
theorem sixty_mul_ediv_of_opensAt {t : ℤ} (h : s.OpensAt t) : 60 * (t / 60) = t := by
  obtain ⟨hour, -, htime⟩ := h
  omega

theorem exists_frames (valid : s.Valid) (h : containing s now = .ok window) :
    ∃ opened : ℤ, IsGreatest {t : ℤ | s.OpensAt t ∧ t ≤ now} opened ∧
      opened / 60 ≤ 2 ^ 32 - 1 ∧ Frames s now opened window := by
  obtain ⟨opened, hlatest, ⟨-, hlate, found, hfound, hframes⟩ | ⟨-, herror⟩⟩ :=
    exists_latest_opening valid now
  · obtain rfl := Except.ok.inj (hfound.symm.trans h)
    exact ⟨opened, hlatest, hlate, hframes⟩
  · rw [herror] at h
    cases h

/-- A window is known by its opening. -/
theorem Frames.eq_iff {opened reopened : ℤ} (h : Frames s now opened window)
    (h' : Frames s later reopened other) (hopens : s.OpensAt opened) (hreopens : s.OpensAt reopened) :
    window = other ↔ opened = reopened := by
  constructor
  · rintro rfl
    have hstart := h.start.symm.trans h'.start
    rw [← sixty_mul_ediv_of_opensAt hopens, hstart, sixty_mul_ediv_of_opensAt hreopens]
  · rintro rfl
    obtain ⟨start, hours⟩ := window
    obtain ⟨start', hours'⟩ := other
    have hstart : (start : ℤ) = start' := h.start.trans h'.start.symm
    have hnext : opened + 3600 * (hours : ℤ) = opened + 3600 * hours' := h.next.unique h'.next
    rw [FeedingWindow.mk.injEq]
    omega

/-- The latest opening stays the latest until the next one. -/
theorem eq_iff_of_isGreatest {opened reopened : ℤ}
    (h : IsGreatest {t : ℤ | s.OpensAt t ∧ t ≤ now} opened)
    (h' : IsGreatest {t : ℤ | s.OpensAt t ∧ t ≤ later} reopened) (hle : now ≤ later) :
    opened = reopened ↔ ¬∃ t : ℤ, s.OpensAt t ∧ now < t ∧ t ≤ later := by
  constructor
  · rintro rfl ⟨t, hopens, hafter, hreached⟩
    have hbefore := h'.2 ⟨hopens, hreached⟩
    have hnow := h.1.2
    omega
  · intro hnone
    have hreached : reopened ≤ now := by
      by_contra hafter
      exact hnone ⟨reopened, h'.1.1, not_le.1 hafter, h'.1.2⟩
    have hopened : opened ≤ later := h.1.2.trans (by exact_mod_cast hle)
    exact le_antisymm (h'.2 ⟨h.1.1, hopened⟩) (h.2 ⟨h'.1.1, hreached⟩)

/-- The window found for an instant is the stretch between the openings around it, and none is found
exactly when the minute of the earlier one cannot be expressed. Two instants have the same window as
long as no opening comes between them. -/
theorem containing_between_openings (valid : s.Valid) :
    (∀ now : Nat, ∃ opened : ℤ, IsGreatest {t : ℤ | s.OpensAt t ∧ t ≤ now} opened ∧
      ((∃ window, containing s now = .ok window) ↔ 0 ≤ opened ∧ opened / 60 ≤ 2 ^ 32 - 1) ∧
      (∀ error, containing s now = .error error → error = .invalidWindow) ∧
      ∀ window, containing s now = .ok window → Frames s now opened window) ∧
    ∀ (now later : Nat) (window other : FeedingWindow), now ≤ later →
      containing s now = .ok window → containing s later = .ok other →
        (window = other ↔ ¬∃ t : ℤ, s.OpensAt t ∧ now < t ∧ t ≤ later) := by
  refine ⟨fun now => ?_, fun now later window other hle hwindow hother => ?_⟩
  · obtain ⟨opened, hlatest, ⟨hearly, hlate, window, hwindow, hframes⟩ | ⟨hrange, herror⟩⟩ :=
      exists_latest_opening valid now
    · refine ⟨opened, hlatest, ⟨fun _ => ⟨hearly, hlate⟩, fun _ => ⟨window, hwindow⟩⟩, ?_, ?_⟩
      · intro error herror
        rw [hwindow] at herror
        cases herror
      · intro found hfound
        obtain rfl := Except.ok.inj (hwindow.symm.trans hfound)
        exact hframes
    · refine ⟨opened, hlatest, ⟨?_, fun h => absurd h hrange⟩, ?_, ?_⟩
      · rintro ⟨window, hwindow⟩
        rw [herror] at hwindow
        cases hwindow
      · intro error hother
        exact (Except.error.inj (herror.symm.trans hother)).symm
      · intro window hwindow
        rw [herror] at hwindow
        cases hwindow
  · obtain ⟨opened, hlatest, -, hframes⟩ := exists_frames valid hwindow
    obtain ⟨reopened, hrelatest, -, hreframes⟩ := exists_frames valid hother
    rw [hframes.eq_iff hreframes hlatest.1.1 hrelatest.1.1]
    exact eq_iff_of_isGreatest hlatest hrelatest hle

/-- At three in the morning the window of the evening before is still open, and it stays the same
until six. On the first day of the epoch there is none before six. -/
theorem containing_between_openings_night :
    let s : Settings := ⟨[6, 18], 2⟩
    s.Valid ∧ containing s 1710039600 = .ok ⟨28500120, 12⟩ ∧
      (∃ opened, Frames s 1710039600 opened ⟨28500120, 12⟩) ∧
      (¬∃ t : ℤ, s.OpensAt t ∧ (1710039600 : Nat) < t ∧ t ≤ (1710050399 : Nat)) ∧
      ∃ opened : ℤ, IsGreatest {t : ℤ | s.OpensAt t ∧ t ≤ (21599 : Nat)} opened ∧
        ¬(0 ≤ opened ∧ opened / 60 ≤ 2 ^ 32 - 1) := by
  intro s
  have valid : s.Valid := (Settings.flaw?_eq_none_iff s).1 (by decide)
  have hnight : containing s 1710039600 = .ok ⟨28500120, 12⟩ := by decide +kernel
  have hdawn : containing s 1710050399 = .ok ⟨28500120, 12⟩ := by decide +kernel
  have hfirst : containing s 21599 = .error .invalidWindow := by decide +kernel
  obtain ⟨hfound, hsame⟩ := containing_between_openings valid
  obtain ⟨opened, -, -, -, hframes⟩ := hfound 1710039600
  obtain ⟨evening, hlatest, hok, -, -⟩ := hfound 21599
  refine ⟨valid, hnight, ⟨opened, hframes _ hnight⟩, ?_, evening, hlatest, fun hrange => ?_⟩
  · exact (hsame _ _ _ _ (by decide) hnight hdawn).1 rfl
  · obtain ⟨window, hwindow⟩ := hok.2 hrange
    rw [hfirst] at hwindow
    cases hwindow

end FeedingWindow

end Fodder
