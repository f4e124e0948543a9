import Fodder.Proofs.Controller
import Fodder.Proofs.Exchange

/-!
# Evaluating a presence query

All that a round does about a cow follows from one evaluation. It notes which collar is present; and if
it comes to a feed, the command goes out next, and then it is told whether it was acknowledged.
-/
namespace Fodder

variable {ρ : Type}

/-- Whether an event tells what became of a feed. -/
def Event.isReport : Event → Bool
  | .feedConfirmed .. | .feedUnconfirmed .. => true
  | _ => false

namespace Controller

variable [RationSource ρ]

/-! ## The evaluation -/

variable {c : Controller} {state : Station} {station : UInt8} {tag : UInt16} {requestedAt : Nat}
  {around : Surroundings} {rations : ρ} {made : Step ρ}

/-- The collar that is heard is noted as present, and none if nothing is heard. -/
theorem Checks.present (h : c.Checks around rations requestedAt (some state) made) :
    ∃ after phase, made.controller = (c.setStation after).inPhase phase ∧
      after.present = (fresh? around.newest requestedAt).elim 0 Ack.tag := by
  cases h with
  | noResponse unheard => exact ⟨_, _, rfl, by rw [unheard]; rfl⟩
  | stationEmpty heard => exact ⟨_, _, rfl, by rw [heard]; rfl⟩
  | intervalPending heard present early => exact ⟨_, _, rfl, by rw [heard]; rfl⟩
  | declined asks declines =>
    obtain ⟨time, heard⟩ := asks.heard
    exact ⟨_, _, rfl, by rw [heard]; rfl⟩
  | served asks answer positive =>
    obtain ⟨time, heard⟩ := asks.heard
    exact ⟨_, _, rfl, by rw [heard]; rfl⟩

/-- A feed is commanded next only if it is told of. -/
theorem Checks.of_sendFeedCommand (h : c.Checks around rations requestedAt (some state) made)
    (hphase : made.controller.phase = .sendFeedCommand tag) :
    ∃ kg, .dispensing c.station tag kg ∈ made.events := by
  cases h with
  | noResponse | stationEmpty | intervalPending | declined => cases hphase
  | @served _ other kg asks answer positive =>
    obtain rfl : other = tag := by simpa [inPhase] using hphase
    exact ⟨kg, by simp⟩

/-- The evaluation of a presence query does not tell what became of a feed. -/
theorem Checks.reports (h : c.Checks around rations requestedAt (some state) made) :
    made.events.filter Event.isReport = [] := by
  cases h with
  | noResponse | stationEmpty | intervalPending | served => rfl
  | @declined _ tag event asks declines =>
    generalize (RationSource.allocate rations tag c.station).1 = answer at declines
    cases declines <;> rfl

/-- A step that evaluates no presence query changes nothing that is remembered of stations. -/
theorem stations_step (hphase : ∀ requestedAt, c.phase ≠ .awaitPresenceAck requestedAt)
    (around : Surroundings) (rations : ρ) :
    (c.step around rations).controller.stations = c.stations := by
  cases hc : c.phase with
  | sendGroupQuery1 | sendGroupQuery2 | sendPresenceQuery | sendFeedCommand | awaitFeedAck
  | sendTerminator =>
    rw [step, hc]
    rfl
  | awaitPresenceAck requestedAt => exact absurd hc (hphase requestedAt)

/-! ## The feed and its report -/

/-- What became of a feed is awaited once the feed was commanded. -/
theorem phase_of_awaitFeedAck
    (h : (c.step around rations).controller.phase = .awaitFeedAck requestedAt tag) :
    c.phase = .sendFeedCommand tag ∧ (c.step around rations).controller.station = c.station := by
  cases hphase : c.phase with
  | sendFeedCommand other =>
    rw [step, hphase] at h ⊢
    obtain ⟨-, rfl⟩ := Phase.awaitFeedAck.inj h
    exact ⟨rfl, rfl⟩
  | awaitPresenceAck requestedAt =>
    have hnone := (evaluates_step hphase around rations).pending
    rw [h] at hnone
    cases hnone
  | sendGroupQuery1 | sendGroupQuery2 | sendPresenceQuery | awaitFeedAck | sendTerminator =>
    rw [step, hphase] at h
    cases h

/-- The command of a feed goes out without a report. -/
theorem step_of_sendFeedCommand (hphase : c.phase = .sendFeedCommand tag) (around : Surroundings)
    (rations : ρ) :
    (c.step around rations).controller = c.inPhase (.awaitFeedAck around.now tag) ∧
      (c.step around rations).events.filter Event.isReport = [] := by
  rw [step, hphase]
  refine ⟨rfl, ?_⟩
  unfold send
  dsimp only
  split_ifs <;> rfl

/-- Then it is told whether it was acknowledged, and the round ends. -/
theorem step_of_awaitFeedAck (hphase : c.phase = .awaitFeedAck requestedAt tag)
    (around : Surroundings) (rations : ρ) :
    (c.step around rations).controller = c.inPhase .sendTerminator ∧
      ((c.step around rations).events = [.feedConfirmed c.station tag] ∨
        (c.step around rations).events = [.feedUnconfirmed c.station tag]) := by
  rw [step, hphase]
  refine ⟨rfl, ?_⟩
  dsimp only
  split_ifs
  · exact .inl rfl
  · exact .inr rfl

/-- A report is told where an acknowledgement of a feed was awaited, or in an evaluation. -/
theorem phase_of_report {event : Event}
    (hevent : event ∈ (c.step around rations).events)
    (h : event = .feedConfirmed station tag ∨ event = .feedUnconfirmed station tag) :
    c.station = station ∧ (∃ requestedAt, c.phase = .awaitFeedAck requestedAt tag) ∨
      ∃ requestedAt, c.phase = .awaitPresenceAck requestedAt := by
  have hsent (frame : Frame) (after : Controller) :
      event ∉ (c.send frame after around.wireDown rations).events := by
    unfold send
    dsimp only
    rcases h with rfl | rfl <;> split_ifs <;> simp
  cases hphase : c.phase with
  | sendGroupQuery1 | sendGroupQuery2 | sendPresenceQuery | sendFeedCommand | sendTerminator =>
    rw [step, hphase] at hevent
    exact absurd hevent (hsent _ _)
  | awaitPresenceAck requestedAt => exact .inr ⟨requestedAt, rfl⟩
  | awaitFeedAck requestedAt other =>
    left
    rw [step, hphase] at hevent
    have hevent := List.mem_singleton.1 hevent
    rcases h with rfl | rfl
    · split_ifs at hevent
      obtain ⟨hstation, rfl⟩ := Event.feedConfirmed.inj hevent
      exact ⟨hstation.symm, requestedAt, rfl⟩
    · split_ifs at hevent
      obtain ⟨hstation, rfl⟩ := Event.feedUnconfirmed.inj hevent
      exact ⟨hstation.symm, requestedAt, rfl⟩

end Controller

end Fodder
