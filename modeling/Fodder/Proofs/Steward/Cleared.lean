import Fodder.Proofs.Steward.Undone

/-!
# Clearing that fails

The steward forgets its herd before the store is told, and does not take that back when a call fails.
So a clearing that fails leaves nothing in memory: the feeds that were pending are gone, and as long
as the count could not be written, the next start brings back every cow that was stored. Only where
there was nothing to forget is a failed clearing as good as none.
-/
namespace Fodder

/-- No cow, no recent feed and no pending slot. -/
structure Engine.Blank (engine : Engine) : Prop where
  herd : engine.herd = {}
  recent : engine.recent = []
  pending : engine.pending = []

namespace Steward

open HerdStore Storage

variable {φ : Type}

/-- A clearing is all or nothing: an error leaves memory as it was, and once nothing fails any more a
flush brings the store in line with it; otherwise no cow is left in memory or in the store. -/
structure Clears (before : Steward φ) (outcome : Except HerdError Unit × Steward φ) : Prop where
  herd : ∀ error, outcome.1 = .error error → outcome.2.engine.herd = before.engine.herd
  recent : ∀ error, outcome.1 = .error error → outcome.2.engine.recent = before.engine.recent
  pending : ∀ error, outcome.1 = .error error → outcome.2.engine.pending = before.engine.pending
  healed : ∀ error, outcome.1 = .error error →
    loaded (outcome.2.withFaults ()).flush.2.device.flash = outcome.2.engine.herd
  cleared : outcome.1 = .ok () → outcome.2.engine.herd = {} ∧ outcome.2.engine.recent = []
  stored : outcome.1 = .ok () → loaded outcome.2.device.flash = {}

/-- A start after the count was set to zero finds no cow. -/
theorem loaded_truncation_zero (flash : Flash) (former : Nat) :
    loaded (flash.edited (truncation 0 former)) = {} := by
  have hholds : Holds (flash.edited (truncation 0 former)) [] [] :=
    ⟨storedCount_truncation flash (by decide) former, by simp⟩
  rw [loaded_of_holds hholds]
  rfl

variable [FaultSource φ] {s : Steward φ}

theorem clear_engine (s : Steward φ) : s.clear.2.engine = { settings := s.engine.settings } := by
  obtain ⟨former, hends⟩ := clear_ends s
  rcases hends.engine_cases with hdone | hundone
  · exact hdone
  · exact hundone

theorem blank_clear (s : Steward φ) : s.clear.2.engine.Blank := by
  rw [clear_engine]
  exact ⟨rfl, rfl, rfl⟩

theorem loaded_clear_of_ok (h : s.clear.1 = .ok ()) : loaded s.clear.2.device.flash = {} := by
  obtain ⟨former, hends⟩ := clear_ends s
  rw [hends.flash_of_ok h]
  exact loaded_truncation_zero s.device.flash former

theorem change_eq_erase_of_call {edit : Edit} (h : edit.call = .erase) : edit.change = .erase := by
  by_contra hchange
  rw [call_eq_write_of_change hchange] at h
  cases h

/-- After a clearing that failed the store has no cow if it was an erasure that failed, and the cows
of before otherwise. -/
theorem loaded_clear_of_error {error : HerdError} (h : s.clear.1 = .error error) :
    loaded s.clear.2.device.flash =
      if s.clear.2.device.failedErasing then {} else loaded s.device.flash := by
  have hlt : 0 < 65536 := by decide
  obtain ⟨former, hbreaks⟩ := resize_breaksOff s.device hlt
  obtain ⟨made, failed, rest, hbroken⟩ : ∃ made failed rest,
      (clearing s.engine former).BrokenOff s s.clear.2 made failed rest :=
    carryOut_brokenOff hbreaks h
  have hscript := hbroken.script
  rw [hbroken.failedErasing_eq, hbroken.flash]
  rcases truncation_eq_append hscript with rfl | ⟨⟨former', rfl⟩, hlater⟩
  · obtain ⟨rfl, -⟩ := List.cons.inj hscript
    rfl
  · have herase := change_eq_erase_of_call (hlater failed List.mem_cons_self)
    rw [loaded_truncation_zero, if_pos (decide_eq_true herase)]

/-- Since a clearing leaves nothing pending, a flush after it changes nothing. -/
theorem flush_clear (s : Steward φ) :
    (s.clear.2.withFaults ()).flush.2.device.flash = s.clear.2.device.flash := by
  have hpending : (s.clear.2.withFaults ()).engine.pending = [] := (blank_clear s).pending
  rw [flush_of_pending hpending]
  rfl

/-- Whatever fails in its course, a clearing is all or nothing exactly if it succeeds, or there was
nothing to forget in memory and the store has no cow either, at the latest since the count was set. -/
theorem clears_clear_iff (s : Steward φ) : s.Clears s.clear ↔ ∀ error, s.clear.1 = .error error →
    s.engine.Blank ∧ (s.clear.2.device.failedErasing = true ∨ loaded s.device.flash = {}) := by
  have hblank := blank_clear s
  constructor
  · intro h error herror
    have hhealed := h.healed error herror
    rw [flush_clear, loaded_clear_of_error herror, hblank.herd] at hhealed
    refine ⟨⟨?_, ?_, ?_⟩, ?_⟩
    · rw [← h.herd error herror, hblank.herd]
    · rw [← h.recent error herror, hblank.recent]
    · rw [← h.pending error herror, hblank.pending]
    · split_ifs at hhealed with herase
      · exact .inl herase
      · exact .inr hhealed
  · intro h
    refine ⟨fun error herror => ?_, fun error herror => ?_, fun error herror => ?_,
      fun error herror => ?_, fun _ => ⟨hblank.herd, hblank.recent⟩, loaded_clear_of_ok⟩
    · rw [hblank.herd, (h error herror).1.herd]
    · rw [hblank.recent, (h error herror).1.recent]
    · rw [hblank.pending, (h error herror).1.pending]
    · rw [flush_clear, loaded_clear_of_error herror, hblank.herd]
      split_ifs with herase
      · rfl
      · exact (h error herror).2.resolve_left herase

/-- The count cannot be written. -/
def stuckCount : FaultPlan := ⟨[{ call := .write, key := some "count", error := .ioError }]⟩

/-- The clearing answers with an error and has forgotten Anna, who is still stored: with the next start
she is back. -/
theorem not_clears_stuckCount :
    let before := (boot (Device.sound {})).run
      [.request (.upsert (Herd.calf "Anna" 1) (Herd.calf_fits (by decide) 1))]
    let outcome := (before.withFaults stuckCount).clear
    let healed := (outcome.2.withFaults ()).flush.2
    before.engine.herd.names = ["Anna"] ∧ outcome.1 = .error (.storage .ioError) ∧
      healed.engine.herd.names = [] ∧ (loaded healed.device.flash).names = ["Anna"] ∧
      ¬Clears (before.withFaults stuckCount) outcome := by
  intro before outcome healed
  have herror : outcome.1 = .error (.storage .ioError) := by decide +kernel
  refine ⟨by decide +kernel, herror, by decide +kernel, by decide +kernel, fun h => ?_⟩
  have hkept := congrArg Herd.names (h.herd _ herror)
  exact absurd hkept (by decide +kernel)

end Steward

end Fodder
