import Fodder.Newest

/-!
# Acknowledgements

What stations answered lately, oldest first. The tag of the newest acknowledgement grows while its
digits are still arriving.
-/
namespace Fodder

structure Ack where
  /-- Milliseconds of the monotonic clock at which its first byte arrived. -/
  time : Nat
  /-- Collar number; zero until a digit arrives, and when no cow is there. -/
  tag : UInt16
  deriving DecidableEq, Repr

abbrev AckHistory := List Ack

namespace AckHistory

def capacity : Nat := 32

def push (history : AckHistory) (ack : Ack) : AckHistory := remember capacity history ack

def newest? (history : AckHistory) : Option Ack := history.getLast?

/-- Changes the newest acknowledgement, if there is one. -/
def amendNewest (history : AckHistory) (change : Ack → Ack) : AckHistory :=
  match history.getLast? with
  | none => history
  | some ack => history.dropLast ++ [change ack]

@[simp] theorem amendNewest_nil (change : Ack → Ack) : amendNewest [] change = [] := rfl

@[simp] theorem amendNewest_concat (history : List Ack) (ack : Ack) (change : Ack → Ack) :
    amendNewest (history ++ [ack]) change = history ++ [change ack] := by
  simp [amendNewest]

@[simp] theorem length_amendNewest (history : AckHistory) (change : Ack → Ack) :
    (history.amendNewest change).length = history.length := by
  rcases history.eq_nil_or_concat with rfl | ⟨older, ack, rfl⟩ <;> simp

/-- An amendment leaves the older acknowledgements as they are. -/
@[simp] theorem dropLast_amendNewest (history : AckHistory) (change : Ack → Ack) :
    (history.amendNewest change).dropLast = history.dropLast := by
  rcases history.eq_nil_or_concat with rfl | ⟨older, ack, rfl⟩ <;> simp

theorem newest?_amendNewest (history : AckHistory) (change : Ack → Ack) :
    (history.amendNewest change).newest? = history.newest?.map change := by
  rcases history.eq_nil_or_concat with rfl | ⟨older, ack, rfl⟩ <;> simp [newest?]

theorem amendNewest_amendNewest (history : AckHistory) (first second : Ack → Ack) :
    (history.amendNewest first).amendNewest second = history.amendNewest (second ∘ first) := by
  rcases history.eq_nil_or_concat with rfl | ⟨older, ack, rfl⟩ <;> simp

theorem amendNewest_id (history : AckHistory) : history.amendNewest id = history := by
  rcases history.eq_nil_or_concat with rfl | ⟨older, ack, rfl⟩ <;> simp

/-- An acknowledgement that arrives is the newest one, whatever it displaces. -/
theorem push_eq_concat (history : AckHistory) (ack : Ack) :
    history.push ack = history.drop (history.length + 1 - capacity) ++ [ack] := by
  have hroom : history.length + 1 - capacity ≤ history.length := by
    rw [capacity]
    omega
  rw [push, remember, newest, List.length_append, List.length_singleton,
    List.drop_append_of_le_length hroom]

theorem newest?_push (history : AckHistory) (ack : Ack) :
    (history.push ack).newest? = some ack := by
  rw [push_eq_concat, newest?, List.getLast?_concat]

/-- What is appended can as well be amended before. -/
theorem amendNewest_push (history : AckHistory) (ack : Ack) (change : Ack → Ack) :
    (history.push ack).amendNewest change = history.push (change ack) := by
  rw [push_eq_concat, push_eq_concat, amendNewest_concat]

end AckHistory

end Fodder
