import Fodder.Engine
import Fodder.Proofs.FeedingWindow.Openings
import Mathlib.Algebra.Order.Floor.Semifield

/-!
# When rations are unlocked

One division of natural numbers stands for the rational rule: a ration at the start and another after
each equal part of the window. A ration is therefore unlocked from the first minute on that is not
before its exact instant. As long as there are not more rations than minutes, no ration is skipped;
but minutes since the epoch are kept in 32 bits, and the very last windows go on beyond them.
-/
namespace Fodder

namespace FeedingWindow

variable {window : FeedingWindow} {rations minute later count more k : Nat}

/-! ## The rational rule -/

theorem floor_parts {hours : Nat} (hhours : 0 < hours) (hrations : 0 < rations) (m : Nat) :
    ⌊((m : ℚ) / 60) / ((hours : ℚ) / rations)⌋₊ = m * rations / (hours * 60) := by
  have hparts : ((m : ℚ) / 60) / ((hours : ℚ) / rations) =
      ((m * rations : Nat) : ℚ) / ((hours * 60 : Nat) : ℚ) := by
    push_cast
    field_simp
  rw [hparts, Nat.floor_div_natCast, Nat.floor_natCast]

theorem expectedFeeds_eq (hhours : 0 < window.hours) (hrations : 0 < rations) (minute : Nat) :
    window.expectedFeeds minute rations =
      if minute < window.start ∨ minuteLimit ≤ window.unlocked rations minute then
        .error .invalidWindow
      else .ok (window.unlocked rations minute) := by
  unfold expectedFeeds unlocked
  by_cases hearly : minute < window.start
  · rw [if_pos (.inr (.inl hearly)), if_pos (.inl hearly)]
  · rw [if_neg (by omega)]
    simp only [hearly, false_or]

theorem expectedFeeds_eq_ok_iff (hhours : 0 < window.hours) (hrations : 0 < rations) :
    window.expectedFeeds minute rations = .ok count ↔
      window.start ≤ minute ∧ window.unlocked rations minute < minuteLimit ∧
        window.unlocked rations minute = count := by
  rw [expectedFeeds_eq hhours hrations]
  split_ifs with hfails
  · simp only [false_iff]
    omega
  · rw [Except.ok.injEq]
    omega

/-! ## Single rations -/

/-- A ration is unlocked when as many parts of the window are over as rations come before it. -/
theorem le_unlocked_iff (hhours : 0 < window.hours) (hk : 0 < k) :
    k ≤ window.unlocked rations minute ↔
      (k - 1) * (60 * window.hours) ≤ (minute - window.start) * rations := by
  have hpos : 0 < window.hours * 60 := by omega
  rw [unlocked, Nat.mul_comm 60, ← Nat.le_div_iff_mul_le hpos]
  omega

theorem exists_isLeast_unlocking (hrations : 0 < rations) (width : Nat) (k : Nat) :
    ∃ first, IsLeast {m | (k - 1) * width ≤ m * rations} first := by
  have hsome : ∃ m, (k - 1) * width ≤ m * rations :=
    ⟨(k - 1) * width, Nat.le_mul_of_pos_right _ hrations⟩
  classical
  exact ⟨Nat.find hsome, Nat.find_spec hsome, fun m hm => Nat.find_min' hsome hm⟩

/-- From the least minute on that a ration needs it is unlocked, and not before. -/
theorem le_unlocked_iff_of_isLeast (hhours : 0 < window.hours) (hk : 0 < k) {first : Nat}
    (hfirst : IsLeast {m | (k - 1) * (60 * window.hours) ≤ m * rations} first) (m : Nat) :
    k ≤ window.unlocked rations (window.start + m) ↔ first ≤ m := by
  rw [le_unlocked_iff hhours hk, Nat.add_sub_cancel_left]
  constructor
  · exact fun h => hfirst.2 h
  · intro hle
    have hreached : (k - 1) * (60 * window.hours) ≤ first * rations := hfirst.1
    exact hreached.trans (Nat.mul_le_mul_right rations hle)

/-- With no more rations than minutes, at most one is unlocked in a minute. -/
theorem unlocked_of_isLeast (hhours : 0 < window.hours) (hle : rations ≤ 60 * window.hours)
    (hk : 0 < k) {first : Nat}
    (hfirst : IsLeast {m | (k - 1) * (60 * window.hours) ≤ m * rations} first) :
    window.unlocked rations (window.start + first) = k := by
  have hreached := (le_unlocked_iff_of_isLeast hhours hk hfirst first).2 le_rfl
  refine le_antisymm (Nat.le_of_lt_succ (Nat.lt_of_not_le fun hnext => ?_)) hreached
  rw [le_unlocked_iff hhours k.succ_pos, Nat.add_sub_cancel_left, Nat.succ_sub_one] at hnext
  obtain ⟨j, rfl⟩ : ∃ j, k = j + 1 := ⟨k - 1, by omega⟩
  -- a minute earlier there would have been time enough as well
  have hbefore : (j + 1 - 1) * (60 * window.hours) ≤ (first - 1) * rations := by
    rw [Nat.add_sub_cancel, Nat.sub_mul, Nat.one_mul]
    rw [Nat.succ_mul] at hnext
    omega
  have hle' : first ≤ first - 1 := hfirst.2 hbefore
  obtain rfl : first = 0 := by omega
  rw [Nat.zero_mul, Nat.le_zero, Nat.mul_eq_zero] at hnext
  omega

/-! ## Windows of a schedule -/

/-- The unlocking rule of a window, for a number of rations and all minutes. -/
structure Unlocks (window : FeedingWindow) (rations : Nat) : Prop where
  value : ∀ minute, window.expectedFeeds minute rations =
    if minute < window.start ∨
        2 ^ 32 - 1 < (minute - window.start) * rations / (60 * window.hours) + 1 then
      .error .invalidWindow
    else .ok (⌊(((minute : ℚ) - window.start) / 60) / ((window.hours : ℚ) / rations)⌋₊ + 1)
  mono : ∀ minute later count more, minute ≤ later →
    window.expectedFeeds minute rations = .ok count → window.expectedFeeds later rations = .ok more →
      count ≤ more
  first : ∀ k, 1 ≤ k → ∃ first,
    IsLeast {m | (k - 1) * (60 * window.hours) ≤ m * rations} first ∧
      ∀ m count, window.expectedFeeds (window.start + m) rations = .ok count → (k ≤ count ↔ first ≤ m)

/-- All that is computed on the way to a number of rations is within 64 bits. -/
structure Fits64 (window : FeedingWindow) (rations minute : Nat) : Prop where
  product : (minute - window.start) * rations < 2 ^ 64
  width : 60 * window.hours < 2 ^ 64
  unlocked : (minute - window.start) * rations / (60 * window.hours) + 1 < 2 ^ 64

/-- The last minute of a window, or the last one that can be expressed. -/
def lastMinute (window : FeedingWindow) : Nat := min (window.start + 60 * window.hours) (2 ^ 32) - 1

/-- In the course of a window its rations are unlocked one by one, all of them unless minutes end
before the window does. -/
structure Serves (window : FeedingWindow) (rations : Nat) : Prop where
  start : window.expectedFeeds window.start rations = .ok 1
  course : ∃ most, window.expectedFeeds window.lastMinute rations = .ok most ∧ most ≤ rations ∧
    (window.start + 60 * window.hours ≤ 2 ^ 32 → most = rations) ∧
    (∀ minute < 2 ^ 32, window.Contains minute → ∃ count,
      window.expectedFeeds minute rations = .ok count) ∧
    ∀ count, (∃ minute < 2 ^ 32, window.Contains minute ∧
      window.expectedFeeds minute rations = .ok count) ↔ 1 ≤ count ∧ count ≤ most

theorem unlocks (hhours : 0 < window.hours) (hrations : 0 < rations) : window.Unlocks rations where
  value minute := by
    have hlimit : minuteLimit = 4294967296 := rfl
    rw [expectedFeeds_eq hhours hrations, unlocked, Nat.mul_comm 60]
    by_cases hfails : minute < window.start ∨
        2 ^ 32 - 1 < (minute - window.start) * rations / (window.hours * 60) + 1
    · rw [if_pos hfails, if_pos (by omega)]
    · have hstart : window.start ≤ minute := by omega
      rw [if_neg hfails, if_neg (by omega), ← Nat.cast_sub hstart, floor_parts hhours hrations]
  mono minute later count more hle hcount hmore := by
    obtain ⟨-, -, rfl⟩ := (expectedFeeds_eq_ok_iff hhours hrations).1 hcount
    obtain ⟨-, -, rfl⟩ := (expectedFeeds_eq_ok_iff hhours hrations).1 hmore
    exact window.unlocked_mono rations hle
  first k hk := by
    obtain ⟨first, hfirst⟩ := exists_isLeast_unlocking hrations (60 * window.hours) k
    refine ⟨first, hfirst, fun m count hcount => ?_⟩
    obtain ⟨-, -, rfl⟩ := (expectedFeeds_eq_ok_iff hhours hrations).1 hcount
    exact le_unlocked_iff_of_isLeast hhours hk hfirst m

theorem fits64 (hhours : window.hours < 2 ^ 8) (hrations : rations < 2 ^ 8) (hminute : minute < 2 ^ 32) :
    window.Fits64 rations minute := by
  have hproduct : (minute - window.start) * rations ≤ 2 ^ 32 * 2 ^ 8 :=
    Nat.mul_le_mul (by omega) hrations.le
  have hquotient := Nat.div_le_self ((minute - window.start) * rations) (60 * window.hours)
  exact ⟨by omega, by omega, by omega⟩

/-- A window that starts in time is served whole, as far as minutes go. -/
theorem serves (hstart : window.start < 2 ^ 32) (hhours : 0 < window.hours) (hrations : 0 < rations)
    (hle : rations ≤ 60 * window.hours) (hlimit : rations < 2 ^ 32) : window.Serves rations where
  start := by
    have hopen : window.Contains window.start := ⟨le_rfl, by omega⟩
    rw [expectedFeeds_eq_unlocked hopen hrations hlimit, unlocked, Nat.sub_self, Nat.zero_mul,
      Nat.zero_div]
  course := by
    have hvalue {minute : Nat} (hopen : window.Contains minute) :
        window.expectedFeeds minute rations = .ok (window.unlocked rations minute) :=
      expectedFeeds_eq_unlocked hopen hrations hlimit
    have hlast : window.Contains window.lastMinute := by
      unfold Contains lastMinute
      omega
    refine ⟨_, hvalue hlast, unlocked_le_rations hlast hrations, fun hwhole => ?_,
      fun minute _ hopen => ⟨_, hvalue hopen⟩, fun count => ⟨?_, ?_⟩⟩
    · refine unlocked_last_minute ?_ hhours hrations (by omega)
      unfold lastMinute
      omega
    · rintro ⟨minute, hminute, hopen, hcount⟩
      obtain rfl := Except.ok.inj ((hvalue hopen).symm.trans hcount)
      have hbefore : minute ≤ window.lastMinute := by
        have hend := hopen.2
        unfold lastMinute
        omega
      exact ⟨Nat.succ_pos _, window.unlocked_mono rations hbefore⟩
    · rintro ⟨hcount, hmost⟩
      obtain ⟨first, hfirst⟩ := exists_isLeast_unlocking hrations (60 * window.hours) count
      obtain ⟨m, hm⟩ := Nat.exists_eq_add_of_le hlast.1
      have hreached : first ≤ m := by
        rw [hm] at hmost
        exact (le_unlocked_iff_of_isLeast hhours hcount hfirst m).1 hmost
      have hend : window.lastMinute < window.start + window.hours * 60 := hlast.2
      have hopen : window.Contains (window.start + first) := ⟨by omega, by omega⟩
      have hminute : window.start + first < 2 ^ 32 := by
        have hcut : window.lastMinute < 2 ^ 32 := by
          unfold lastMinute
          omega
        omega
      refine ⟨window.start + first, hminute, hopen, ?_⟩
      rw [hvalue hopen, unlocked_of_isLeast hhours hle hcount hfirst]

/-- Rations are unlocked by the rational rule, in any window and at any minute. In the windows of a
valid schedule they are unlocked one by one, from the first to the last unless minutes end before. -/
theorem expectedFeeds_unlocking :
    (∀ (start minute : UInt32) (hours rations : UInt8), 1 ≤ hours.toNat → 1 ≤ rations.toNat →
      Unlocks ⟨start.toNat, hours.toNat⟩ rations.toNat ∧
        Fits64 ⟨start.toNat, hours.toNat⟩ rations.toNat minute.toNat) ∧
    ∀ (s : Settings) (now : Nat) (window : FeedingWindow) (rations : Nat), s.Valid →
      containing s now = .ok window → 1 ≤ rations → rations ≤ Settings.maxRations →
        window.Serves rations := by
  refine ⟨fun start minute hours rations hhours hrations => ⟨unlocks hhours hrations, ?_⟩, ?_⟩
  · exact fits64 hours.toNat_lt rations.toNat_lt minute.toNat_lt
  · intro s now window rations valid hwindow hrations hmax
    have hmax : rations ≤ 48 := hmax
    obtain ⟨opened, -, hlate, hframes⟩ := exists_frames valid hwindow
    have hstart := hframes.start
    have hhours := hframes.hours.1
    exact serves (by omega) hhours hrations (by omega) (by omega)

/-- The fourth of five rations in eight hours is due after 288 minutes, and the second of two in the
night from six to six at midnight. -/
theorem expectedFeeds_unlocking_night :
    let eight : FeedingWindow := ⟨1000000, 8⟩
    let night : FeedingWindow := ⟨28500120, 12⟩
    eight.Unlocks 5 ∧ eight.expectedFeeds 1000287 5 = .ok 3 ∧ eight.expectedFeeds 1000288 5 = .ok 4 ∧
      eight.Fits64 5 1000288 ∧ (⟨[6, 18], 2⟩ : Settings).Valid ∧
      containing ⟨[6, 18], 2⟩ 1710039600 = .ok night ∧ night.Serves 2 ∧
      night.expectedFeeds 28500479 2 = .ok 1 ∧ night.expectedFeeds 28500480 2 = .ok 2 := by
  intro eight night
  have valid : (⟨[6, 18], 2⟩ : Settings).Valid := (Settings.flaw?_eq_none_iff _).1 (by decide)
  have hwindow : containing ⟨[6, 18], 2⟩ 1710039600 = .ok night := by decide +kernel
  obtain ⟨hunlocks, hserves⟩ := expectedFeeds_unlocking
  obtain ⟨hrule, hfits⟩ := hunlocks 1000000 1000288 8 5 (by decide) (by decide)
  exact ⟨hrule, by decide, by decide, hfits, valid, hwindow,
    hserves _ _ night 2 valid hwindow (by decide) (by decide), by decide, by decide⟩

/-- The last midnight of which the minute can be expressed opens a window of four rations. Minutes end
before the second one is unlocked, and at the end of the window no answer can be given any more. -/
theorem not_every_count_lastDay :
    let s : Settings := ⟨[0], 4⟩
    let window : FeedingWindow := ⟨4294967040, 24⟩
    s.Valid ∧ containing s 257698108740 = .ok window ∧
      257698108740 / 60 + 1 = window.start + 60 * window.hours ∧
      (∀ feeds, s.rule feeds 257698108740 = .error .invalidWindow) ∧
      (∀ minute < 2 ^ 32, window.Contains minute → window.expectedFeeds minute 4 = .ok 1) ∧
      ¬∀ count, 1 ≤ count → count ≤ 4 →
        ∃ minute < 2 ^ 32, window.Contains minute ∧ window.expectedFeeds minute 4 = .ok count := by
  intro s window
  have valid : s.Valid := (Settings.flaw?_eq_none_iff s).1 (by decide)
  have hwindow : containing s 257698108740 = .ok window := by decide +kernel
  have hone : ∀ minute < 2 ^ 32, window.Contains minute → window.expectedFeeds minute 4 = .ok 1 := by
    intro minute hminute hopen
    have hstart : window.start = 4294967040 := rfl
    have hhours : window.hours = 24 := rfl
    have hearly : (minute - 4294967040) * 4 / (24 * 60) + 1 = 1 := by omega
    rw [expectedFeeds_eq_unlocked hopen (by decide) (by decide), unlocked, hstart, hhours, hearly]
  refine ⟨valid, hwindow, by decide, fun feeds => ?_, hone, fun hevery => ?_⟩
  · have hlate : minuteLimit ≤ 257698108740 / 60 := by decide
    simp only [Settings.rule, hwindow, if_pos hlate]
    rfl
  · obtain ⟨minute, hminute, hopen, htwo⟩ := hevery 2 (by decide) (by decide)
    rw [hone minute hminute hopen] at htwo
    exact absurd htwo (by decide)

end FeedingWindow

end Fodder
