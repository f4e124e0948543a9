import Fodder.FeedingWindow
import Mathlib.Tactic

/-!
# Feeding windows contain their instants

The spans of a schedule follow each other: every reset hour but the last is followed by the one
that closes its window, and the last window is closed by the first reset hour of the next day. From
this the window found for an instant contains it, and the rations unlocked in it grow from one to
the number that the schedule splits the allowance into.
-/
namespace Fodder

namespace Settings

theorem pairwise_of_ascending {resets : List UInt8} (h : ascending resets = true) :
    resets.Pairwise (· < ·) := by
  induction resets with
  | nil => exact .nil
  | cons a rest ih =>
    cases rest with
    | nil => exact List.pairwise_singleton _ _
    | cons b rest =>
      obtain ⟨hab, sorted⟩ := Bool.and_eq_true_iff.1 h
      have later := List.pairwise_cons.1 (ih sorted)
      refine List.pairwise_cons.2 ⟨fun c hc => ?_, ih sorted⟩
      rcases List.mem_cons.1 hc with rfl | hc
      · exact of_decide_eq_true hab
      · exact UInt8.lt_trans (of_decide_eq_true hab) (later.1 c hc)

end Settings

namespace FeedingWindow

/-- The element that a filter keeps last, with what stands around it in the list. -/
theorem getLast?_filter_eq_some {α : Type} {p : α → Bool} {items : List α} {last : α}
    (h : (items.filter p).getLast? = some last) :
    ∃ before after, items = before ++ last :: after ∧ p last ∧ ∀ item ∈ after, ¬p item := by
  obtain ⟨init, hinit⟩ := List.getLast?_eq_some_iff.1 h
  obtain ⟨front, rest, rfl, -, hrest⟩ := List.filter_eq_append_iff.1 hinit
  obtain ⟨skipped, after, rfl, -, hlast, hafter⟩ := List.filter_eq_cons_iff.1 hrest
  refine ⟨front ++ skipped, after, by simp, hlast, ?_⟩
  intro item member
  exact List.filter_eq_nil_iff.1 hafter item member

/-- A span is closed by the hour that opens the next one; the last span is closed by `first`. -/
theorem span_followed {first : UInt8} {resets : List UInt8} {before after : List (UInt8 × UInt8)}
    {opens closes : UInt8}
    (h : resets.zip (resets.drop 1 ++ [first]) = before ++ (opens, closes) :: after) :
    (after = [] ∧ closes = first) ∨ ∃ next, (closes, next) ∈ after := by
  induction resets generalizing before with
  | nil => simp at h
  | cons a rest ih =>
    cases rest with
    | nil =>
      cases before with
      | nil =>
        simp only [List.drop_succ_cons, List.drop_zero, List.nil_append, List.zip_cons_cons,
          List.zip_nil_right, List.cons.injEq, Prod.mk.injEq] at h
        exact .inl ⟨h.2.symm, h.1.2.symm⟩
      | cons _ before => simp at h
    | cons b rest =>
      simp only [List.drop_succ_cons, List.drop_zero, List.cons_append, List.zip_cons_cons] at h
      cases before with
      | nil =>
        simp only [List.nil_append, List.cons.injEq, Prod.mk.injEq] at h
        obtain ⟨⟨-, rfl⟩, rfl⟩ := h
        right
        cases rest with
        | nil => exact ⟨first, by simp⟩
        | cons c rest => exact ⟨c, by simp⟩
      | cons _ before =>
        simp only [List.cons_append, List.cons.injEq] at h
        have hrest : (b :: rest).zip ((b :: rest).drop 1 ++ [first]) =
            before ++ (opens, closes) :: after := by
          simpa using h.2
        exact ih hrest

variable {s : Settings} {now : Nat} {window : FeedingWindow}

/-- The minutes of a window, the one at which the next window opens excluded. -/
def Contains (window : FeedingWindow) (minute : Nat) : Prop :=
  window.start ≤ minute ∧ minute < window.start + window.hours * 60

theorem spans_eq {first : UInt8} {rest : List UInt8} :
    spans (first :: rest) = (first :: rest).zip ((first :: rest).drop 1 ++ [first]) := rfl

theorem mem_spans_left {resets : List UInt8} {span : UInt8 × UInt8} (h : span ∈ spans resets) :
    span.1 ∈ resets :=
  (List.of_mem_zip h).1

/-- The first reset hour of a valid schedule comes before all others. -/
theorem first_le_of_mem_spans {first : UInt8} {rest : List UInt8} (valid : s.Valid)
    (hs : s.resets = first :: rest) {span : UInt8 × UInt8} (h : span ∈ spans s.resets) :
    first ≤ span.1 := by
  have sorted := Settings.pairwise_of_ascending valid.ascending
  rw [hs] at sorted
  rcases List.mem_cons.1 (hs ▸ mem_spans_left h) with heq | hmem
  · exact heq ▸ UInt8.le_refl _
  · exact UInt8.le_of_lt ((List.pairwise_cons.1 sorted).1 _ hmem)

theorem lengthHours_of_lt {opens closes : UInt8} (h : opens < closes) :
    opens.toNat + lengthHours opens closes = closes.toNat := by
  have := UInt8.lt_iff_toNat_lt.1 h
  rw [lengthHours, if_pos h]
  omega

theorem lengthHours_of_le {opens closes : UInt8} (h : closes ≤ opens) (hopens : opens.toNat ≤ 23) :
    opens.toNat + lengthHours opens closes = closes.toNat + 24 := by
  have := UInt8.le_iff_toNat_le.1 h
  rw [lengthHours, if_neg (UInt8.not_lt.2 h)]
  omega

theorem opening_eq_ok {day : Nat} {span : UInt8 × UInt8} (h : opening day span = .ok window) :
    window = ⟨day * 1440 + span.1.toNat * 60, lengthHours span.1 span.2⟩ := by
  rw [opening] at h
  split at h
  · cases h
  · exact (Except.ok.inj h).symm

section Spans

variable {first : UInt8} {rest : List UInt8} {span : UInt8 × UInt8} {hour : Nat}

theorem closes_of_eq_append (hs : s.resets = first :: rest) {before after : List (UInt8 × UInt8)}
    (h : spans s.resets = before ++ span :: after) :
    (after = [] ∧ span.2 = first) ∨ ∃ next, (span.2, next) ∈ after := by
  rw [hs, spans_eq] at h
  exact span_followed h

theorem closes_of_getLast? (hs : s.resets = first :: rest)
    (h : (spans s.resets).getLast? = some span) : span ∈ spans s.resets ∧ span.2 = first := by
  obtain ⟨before, hall⟩ := List.getLast?_eq_some_iff.1 h
  have hmem : span ∈ spans s.resets := by simp [hall]
  rcases closes_of_eq_append hs hall with ⟨-, hcloses⟩ | ⟨next, hnext⟩
  · exact ⟨hmem, hcloses⟩
  · simp at hnext

/-- The span that the first reset hour closes ends on the next day. -/
theorem lengthHours_of_closes (valid : s.Valid) (hs : s.resets = first :: rest)
    (hmem : span ∈ spans s.resets) (hcloses : span.2 = first) :
    span.1.toNat + lengthHours span.1 span.2 = first.toNat + 24 := by
  have hopens := valid.hours _ (mem_spans_left hmem)
  have hle := first_le_of_mem_spans valid hs hmem
  rw [← hcloses] at hle ⊢
  exact lengthHours_of_le hle hopens

/-- The last span that a day has reached is still open. -/
theorem open_of_reached (valid : s.Valid) (hhour : hour < 24)
    (h : ((spans s.resets).filter fun span => span.1.toNat ≤ hour).getLast? = some span) :
    span.1.toNat ≤ hour ∧ hour < span.1.toNat + lengthHours span.1 span.2 := by
  obtain ⟨first, rest, hs⟩ := List.exists_cons_of_ne_nil valid.nonempty
  obtain ⟨before, after, hall, reached, unreached⟩ := getLast?_filter_eq_some h
  have reached : span.1.toNat ≤ hour := of_decide_eq_true reached
  have hmem : span ∈ spans s.resets := by simp [hall]
  refine ⟨reached, ?_⟩
  rcases closes_of_eq_append hs hall with ⟨-, hcloses⟩ | ⟨next, hnext⟩
  · have hlength := lengthHours_of_closes valid hs hmem hcloses
    omega
  · have hlater : hour < span.2.toNat := by simpa using unreached _ hnext
    have hlength := lengthHours_of_lt (UInt8.lt_iff_toNat_lt.2 (reached.trans_lt hlater))
    omega

/-- Before the first reset hour of a day, the last span of the day before is still open. -/
theorem open_of_unreached (valid : s.Valid)
    (h : ((spans s.resets).filter fun span => span.1.toNat ≤ hour).getLast? = none)
    (hlast : (spans s.resets).getLast? = some span) :
    span.1.toNat ≤ hour + 24 ∧ hour + 24 < span.1.toNat + lengthHours span.1 span.2 := by
  obtain ⟨first, rest, hs⟩ := List.exists_cons_of_ne_nil valid.nonempty
  obtain ⟨hmem, hcloses⟩ := closes_of_getLast? hs hlast
  have hopens := valid.hours _ (mem_spans_left hmem)
  have hlength := lengthHours_of_closes valid hs hmem hcloses
  have hfirst : ∃ closes, (first, closes) ∈ spans s.resets := by
    rw [hs, spans_eq]
    cases rest with
    | nil => exact ⟨first, by simp⟩
    | cons second rest => exact ⟨second, by simp⟩
  obtain ⟨closes, hfirst⟩ := hfirst
  have hearly := List.filter_eq_nil_iff.1 (List.getLast?_eq_none_iff.1 h) _ hfirst
  have hearly : hour < first.toNat := by simpa using hearly
  omega

theorem containing_of_all_reached (hlast : (spans s.resets).getLast? = some span)
    (hall : ∀ other ∈ spans s.resets, other.1.toNat ≤ now / 3600 % 24) :
    containing s now = opening (now / 86400) span := by
  have reached : ((spans s.resets).filter fun other => other.1.toNat ≤ now / 3600 % 24) =
      spans s.resets := by
    rw [List.filter_eq_self]
    intro other hother
    exact decide_eq_true (hall other hother)
  unfold containing
  simp only [reached, hlast]

theorem containing_of_none_reached (hlast : (spans s.resets).getLast? = some span)
    (hnone : ∀ other ∈ spans s.resets, now / 3600 % 24 < other.1.toNat) (hday : now / 86400 ≠ 0) :
    containing s now = opening (now / 86400 - 1) span := by
  have unreached : ((spans s.resets).filter fun other => other.1.toNat ≤ now / 3600 % 24) = [] := by
    rw [List.filter_eq_nil_iff]
    intro other hother
    have := hnone other hother
    simpa using this
  unfold containing
  simp only [unreached, hlast, List.getLast?_nil, if_neg hday]

end Spans

/-- The window found for an instant contains it. -/
theorem contains_of_containing (valid : s.Valid) (h : containing s now = .ok window) :
    window.Contains (now / 60) := by
  have hhour : now / 3600 % 24 < 24 := Nat.mod_lt _ (by decide)
  unfold containing at h
  dsimp only at h
  split at h
  · rename_i span hspan
    have hopen := open_of_reached valid hhour hspan
    obtain rfl := opening_eq_ok h
    constructor <;> dsimp only <;> omega
  · rename_i hspan
    split at h
    · rename_i span hlast
      split at h
      · cases h
      · have hopen := open_of_unreached valid hspan hlast
        obtain rfl := opening_eq_ok h
        constructor <;> dsimp only <;> omega
    · cases h

theorem exists_last_span (valid : s.Valid) : ∃ span, (spans s.resets).getLast? = some span := by
  obtain ⟨first, rest, hs⟩ := List.exists_cons_of_ne_nil valid.nonempty
  have hne : spans s.resets ≠ [] := by
    rw [hs, spans_eq]
    cases rest <;> simp
  exact Option.ne_none_iff_exists'.1 (List.getLast?_eq_none_iff.not.2 hne)

/-- Every valid schedule has a window whose last minute comes after the first day of the epoch and
long before the last minute that can be expressed. -/
theorem exists_last_minute (valid : s.Valid) :
    ∃ now window, containing s now = .ok window ∧ now ≠ 0 ∧ now / 60 < minuteLimit ∧
      now / 60 + 1 = window.start + window.hours * 60 := by
  obtain ⟨first, rest, hs⟩ := List.exists_cons_of_ne_nil valid.nonempty
  obtain ⟨span, hlast⟩ := exists_last_span valid
  obtain ⟨hmem, hcloses⟩ := closes_of_getLast? hs hlast
  have hopens := valid.hours _ (mem_spans_left hmem)
  have hlength := lengthHours_of_closes valid hs hmem hcloses
  have hfirst : first.toNat ≤ 23 := valid.hours first (hs ▸ List.mem_cons_self)
  have hlimit : minuteLimit = 4294967296 := rfl
  have hopening : opening 1 span = .ok ⟨1440 + span.1.toNat * 60, lengthHours span.1 span.2⟩ := by
    rw [opening, if_neg (by omega), Nat.one_mul]
  -- the minute before the first reset hour of the second day after the first
  have hcontaining : containing s (60 * (2879 + first.toNat * 60)) = opening 1 span := by
    by_cases hzero : first.toNat = 0
    · have hday : 60 * (2879 + first.toNat * 60) / 86400 = 1 := by omega
      rw [containing_of_all_reached hlast, hday]
      intro other hother
      have := valid.hours _ (mem_spans_left hother)
      omega
    · have hday : 60 * (2879 + first.toNat * 60) / 86400 = 2 := by omega
      rw [containing_of_none_reached hlast _ (by omega), hday]
      intro other hother
      have := UInt8.le_iff_toNat_le.1 (first_le_of_mem_spans valid hs hother)
      omega
  refine ⟨60 * (2879 + first.toNat * 60), _, hcontaining.trans hopening, by omega, by omega, ?_⟩
  dsimp only
  omega

/-- Rations unlocked at a minute of the window. -/
def unlocked (window : FeedingWindow) (rations minute : Nat) : Nat :=
  (minute - window.start) * rations / (window.hours * 60) + 1

variable {rations minute : Nat}

theorem unlocked_mono (window : FeedingWindow) (rations : Nat) {minute later : Nat}
    (h : minute ≤ later) : window.unlocked rations minute ≤ window.unlocked rations later := by
  unfold unlocked
  gcongr

theorem unlocked_le_rations (h : window.Contains minute) (hrations : 0 < rations) :
    window.unlocked rations minute ≤ rations := by
  obtain ⟨opened, stillOpen⟩ := h
  apply Nat.div_lt_of_lt_mul
  exact Nat.mul_lt_mul_of_pos_right (by omega) hrations

/-- In its last minute a window has unlocked every ration. -/
theorem unlocked_last_minute (h : minute + 1 = window.start + window.hours * 60)
    (hhours : 0 < window.hours) (hrations : 0 < rations) (hle : rations ≤ window.hours * 60) :
    window.unlocked rations minute = rations := by
  have elapsed : minute - window.start = window.hours * 60 - 1 := by omega
  have split : (window.hours * 60 - 1) * rations =
      window.hours * 60 * (rations - 1) + (window.hours * 60 - rations) := by
    obtain ⟨k, rfl⟩ : ∃ k, rations = k + 1 := ⟨rations - 1, by omega⟩
    obtain ⟨m, hm⟩ := Nat.exists_eq_add_of_le hle
    have hlast : k + 1 + m - 1 = k + m := by omega
    rw [hm, hlast, Nat.add_sub_cancel, Nat.add_sub_cancel_left]
    ring
  unfold unlocked
  rw [elapsed, split, Nat.mul_add_div (by omega), Nat.div_eq_of_lt (by omega)]
  omega

theorem expectedFeeds_eq_unlocked (h : window.Contains minute) (hrations : 0 < rations)
    (hlimit : rations < minuteLimit) :
    window.expectedFeeds minute rations = .ok (window.unlocked rations minute) := by
  have hle := unlocked_le_rations h hrations
  obtain ⟨opened, stillOpen⟩ := h
  rw [expectedFeeds, if_neg (by omega)]
  exact if_neg (by rw [unlocked] at hle; omega)

end FeedingWindow

end Fodder
