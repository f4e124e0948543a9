/-!
# Keeping the newest

Acknowledgements, feeds and log lines are remembered in a bounded amount of room. Entries stand
oldest first; once the room is used up, every arrival displaces the oldest entry.
-/
namespace Fodder

variable {α : Type}

/-- The last `room` entries. -/
def newest (room : Nat) (entries : List α) : List α :=
  entries.drop (entries.length - room)

/-- Appends an entry and keeps what there is room for. -/
def remember (room : Nat) (entries : List α) (entry : α) : List α :=
  newest room (entries ++ [entry])

/-- The entry that the next arrival displaces, if the room is used up. -/
def displaced? (room : Nat) (entries : List α) : Option α :=
  if entries.length < room then none else entries.head?

theorem newest_of_length_le {room : Nat} {entries : List α} (h : entries.length ≤ room) :
    newest room entries = entries := by
  rw [newest, Nat.sub_eq_zero_of_le h, List.drop_zero]

theorem length_newest (room : Nat) (entries : List α) :
    (newest room entries).length = min room entries.length := by
  simp only [newest, List.length_drop]
  omega

theorem newest_suffix (room : Nat) (entries : List α) : newest room entries <:+ entries :=
  List.drop_suffix _ _

theorem length_remember_le (room : Nat) (entries : List α) (entry : α) :
    (remember room entries entry).length ≤ room := by
  rw [remember, length_newest]
  exact Nat.min_le_left _ _

/-- What was already displaced has no influence on what is kept later. -/
theorem newest_newest_append (room : Nat) (entries later : List α) :
    newest room (newest room entries ++ later) = newest room (entries ++ later) := by
  simp only [newest, List.length_append, List.length_drop]
  by_cases h : entries.length ≤ room
  · rw [Nat.sub_eq_zero_of_le h, List.drop_zero, Nat.sub_zero]
  · rw [← List.drop_append_of_le_length (Nat.sub_le _ _), List.drop_drop]
    congr 1
    omega

theorem remember_newest (room : Nat) (entries : List α) (entry : α) :
    remember room (newest room entries) entry = remember room entries entry :=
  newest_newest_append room entries [entry]

end Fodder
