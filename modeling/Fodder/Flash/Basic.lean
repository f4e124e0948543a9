import Fodder.Flash.Error

/-!
# Flash

Blobs under names. A name is a key in a space; the two are joined into one text, under which the
blob is found again.
-/
namespace Fodder

structure Flash where
  cells : List (String × List UInt8) := []
  deriving DecidableEq, Repr

namespace Flash

/-- Largest blob, in bytes. -/
def blobCapacity : Nat := 1024

def path (space key : String) : String := space ++ "::" ++ key

variable (flash : Flash)

def get? (path : String) : Option (List UInt8) := flash.cells.lookup path

def remove (path : String) : Flash := ⟨flash.cells.filter (·.1 ≠ path)⟩

def put (path : String) (blob : List UInt8) : Flash := ⟨(path, blob) :: (flash.remove path).cells⟩

theorem get?_remove (path other : String) :
    (flash.remove path).get? other = if other = path then none else flash.get? other := by
  obtain ⟨cells⟩ := flash
  simp only [get?, remove]
  induction cells with
  | nil => simp
  | cons cell cells ih =>
    obtain ⟨name, blob⟩ := cell
    rw [List.filter_cons, List.lookup_cons]
    by_cases h : name = path
    · subst h
      rw [if_neg (by simp), ih]
      by_cases h' : other = name
      · simp [h']
      · rw [beq_false_of_ne h']
    · rw [if_pos (by simpa using h), List.lookup_cons, ih]
      by_cases h' : other = name
      · subst h'
        simp [h]
      · rw [beq_false_of_ne h']

theorem get?_put (path other : String) (blob : List UInt8) :
    (flash.put path blob).get? other = if other = path then some blob else flash.get? other := by
  have removed := get?_remove flash path other
  simp only [put, get?, List.lookup_cons] at removed ⊢
  by_cases h : other = path
  · simp [h]
  · rw [if_neg h] at removed ⊢
    rw [beq_false_of_ne h]
    exact removed

/-- Reads a blob into room for `room` bytes. -/
def read (space key : String) (room : Nat) : Except StorageError (List UInt8) :=
  match flash.get? (path space key) with
  | none => .error .notFound
  | some blob => if room < blob.length then .error .full else .ok blob

def write (space key : String) (blob : List UInt8) : Except StorageError Flash :=
  if blobCapacity < blob.length then .error .full else .ok (flash.put (path space key) blob)

/-- Erases a blob, if there is one. -/
def erase (space key : String) : Flash := flash.remove (path space key)

end Flash

end Fodder
