import Fodder.Herd.Store
import Fodder.Proofs.Blob.Records
import Fodder.Proofs.Flash.Script

/-!
# What the stored herd shows

The contents of a flash mean a count, a cow for some of the slots and a schedule. Every change that
the store makes is an edit of one key, so it is seen in one of the three and leaves the others as
they were; every program of the store reads these meanings or carries out a script of edits.
-/
namespace Fodder.HerdStore

open Storage

/-! ## Keys -/

theorem slotKey_inj {i j : Nat} : slotKey i = slotKey j ↔ i = j := by
  constructor
  · intro h
    have hdigits : Nat.toDigits 10 i = Nat.toDigits 10 j := by
      simpa [slotKey, ← String.toList_inj, Nat.toList_repr] using h
    rw [← Nat.ofDigitChars_ten_toDigits (n := i), hdigits, Nat.ofDigitChars_ten_toDigits]
  · exact fun h => h ▸ rfl

theorem slotKey_ne_countKey (i : Nat) : slotKey i ≠ countKey := by
  intro h
  have hdigits : Nat.toDigits 10 i = ['o', 'u', 'n', 't'] := by
    simpa [slotKey, countKey, ← String.toList_inj, Nat.toList_repr] using h
  have hdigit : 'o'.isDigit :=
    Nat.isDigit_of_mem_toDigits (b := 10) (n := i) (by decide) (by decide) (by simp [hdigits])
  exact absurd hdigit (by decide)

theorem slotKey_ne_settingsKey (i : Nat) : slotKey i ≠ settingsKey := by
  intro h
  simp [slotKey, settingsKey, ← String.toList_inj] at h

theorem countKey_ne_settingsKey : countKey ≠ settingsKey := by decide

/-! ## The meaning of the contents -/

def storedCount (flash : Flash) : Except StorageError Nat :=
  match flash.read space countKey 2 with
  | .ok blob => countOf blob
  | .error .notFound => .ok 0
  | .error error => .error error

def storedCow? (flash : Flash) (index : Nat) : Option Cow :=
  ((flash.read space (slotKey index) Flash.blobCapacity).bind cowOf).toOption

def storedSettings (flash : Flash) : Except StorageError Settings :=
  match flash.read space settingsKey settingsRoom with
  | .ok blob => settingsOf blob
  | .error .notFound => .ok {}
  | .error error => .error error

/-- The cows found in `slots` slots from `index` on. -/
def storedCows (flash : Flash) (index slots : Nat) : List Cow :=
  (List.range' index slots).filterMap (storedCow? flash)

theorem storedCows_succ (flash : Flash) (index slots : Nat) :
    storedCows flash index (slots + 1) =
      (storedCow? flash index).toList ++ storedCows flash (index + 1) slots := by
  rw [storedCows, List.range'_succ, List.filterMap_cons, storedCows]
  cases storedCow? flash index <;> rfl

theorem storedCows_add (flash : Flash) (index slots more : Nat) :
    storedCows flash index (slots + more) =
      storedCows flash index slots ++ storedCows flash (index + slots) more := by
  rw [storedCows, ← List.range'_append_1, List.filterMap_append]
  rfl

/-! ## Edits -/

def saveEdit (cow : Cow) (index : Nat) : Edit := ⟨space, slotKey index, .write cow.blob⟩

def countEdit (count : Nat) : Edit := ⟨space, countKey, .write (countBlob count)⟩

def eraseEdit (index : Nat) : Edit := ⟨space, slotKey index, .erase⟩

def settingsEdit (settings : Settings) : Edit := ⟨space, settingsKey, .write settings.blob⟩

theorem saveEdit_fits {cow : Cow} (h : cow.Fits) (index : Nat) : (saveEdit cow index).Fits :=
  cow.length_blob_le h

theorem countEdit_fits (count : Nat) : (countEdit count).Fits := by
  simp [Edit.Fits, countEdit, countBlob, Flash.blobCapacity]

theorem eraseEdit_fits (index : Nat) : (eraseEdit index).Fits := trivial

theorem settingsEdit_fits {settings : Settings} (h : settings.Fits) : (settingsEdit settings).Fits :=
  (settings.length_blob_le h).trans (by decide)

variable (flash : Flash)

theorem countOf_countBlob {count : Nat} (h : count < 65536) : countOf (countBlob count) = .ok count := by
  rw [countBlob, countOf, UInt8.toNat_ofNat', UInt8.toNat_ofNat']
  congr 1
  omega

/-! ## What an edit changes

An edit is seen in the view that its key belongs to, and in no other. -/

section OtherKeys

variable {key : String} (change : Change)

theorem storedCount_edit (h : countKey ≠ key) :
    storedCount (flash.edit ⟨space, key, change⟩) = storedCount flash := by
  unfold storedCount Flash.read
  rw [Flash.get?_edit, if_neg h]

theorem storedCow?_edit {index : Nat} (h : slotKey index ≠ key) :
    storedCow? (flash.edit ⟨space, key, change⟩) index = storedCow? flash index := by
  unfold storedCow? Flash.read
  rw [Flash.get?_edit, if_neg h]

theorem storedSettings_edit (h : settingsKey ≠ key) :
    storedSettings (flash.edit ⟨space, key, change⟩) = storedSettings flash := by
  unfold storedSettings Flash.read
  rw [Flash.get?_edit, if_neg h]

end OtherKeys

theorem storedCount_countEdit {count : Nat} (h : count < 65536) :
    storedCount (flash.edit (countEdit count)) = .ok count := by
  unfold storedCount Flash.read countEdit
  rw [Flash.get?_edit, if_pos rfl]
  exact countOf_countBlob h

theorem storedCow?_saveEdit {cow : Cow} (h : cow.Fits) (index other : Nat) :
    storedCow? (flash.edit (saveEdit cow index)) other =
      if other = index then some cow else storedCow? flash other := by
  by_cases heq : other = index
  · subst heq
    unfold storedCow? Flash.read saveEdit
    rw [if_pos rfl, Flash.get?_edit, if_pos rfl]
    simp only [if_neg (Nat.not_lt.2 (cow.length_blob_le h))]
    simp [Except.bind, cowOf, Cow.ofBlob?_blob h, Except.toOption]
  · rw [if_neg heq]
    exact storedCow?_edit flash _ (mt slotKey_inj.1 heq)

theorem storedCow?_eraseEdit (index other : Nat) :
    storedCow? (flash.edit (eraseEdit index)) other =
      if other = index then none else storedCow? flash other := by
  by_cases heq : other = index
  · subst heq
    unfold storedCow? Flash.read eraseEdit
    rw [if_pos rfl, Flash.get?_edit, if_pos rfl]
    rfl
  · rw [if_neg heq]
    exact storedCow?_edit flash _ (mt slotKey_inj.1 heq)

theorem storedSettings_settingsEdit {settings : Settings} (h : settings.Fits) :
    storedSettings (flash.edit (settingsEdit settings)) = .ok settings := by
  have hroom : ¬settingsRoom < settings.blob.length :=
    Nat.not_lt.2 ((settings.length_blob_le h).trans (by decide))
  unfold storedSettings Flash.read settingsEdit
  rw [Flash.get?_edit, if_pos rfl]
  simp [hroom, settingsOf, Settings.ofBlob?_blob h]

theorem storedCount_saveEdit (cow : Cow) (index : Nat) :
    storedCount (flash.edit (saveEdit cow index)) = storedCount flash :=
  storedCount_edit flash _ (slotKey_ne_countKey index).symm

theorem storedCount_eraseEdit (index : Nat) :
    storedCount (flash.edit (eraseEdit index)) = storedCount flash :=
  storedCount_edit flash _ (slotKey_ne_countKey index).symm

theorem storedCount_settingsEdit (settings : Settings) :
    storedCount (flash.edit (settingsEdit settings)) = storedCount flash :=
  storedCount_edit flash _ countKey_ne_settingsKey

theorem storedCow?_countEdit (count index : Nat) :
    storedCow? (flash.edit (countEdit count)) index = storedCow? flash index :=
  storedCow?_edit flash _ (slotKey_ne_countKey index)

theorem storedCow?_settingsEdit (settings : Settings) (index : Nat) :
    storedCow? (flash.edit (settingsEdit settings)) index = storedCow? flash index :=
  storedCow?_edit flash _ (slotKey_ne_settingsKey index)

theorem storedSettings_countEdit (count : Nat) :
    storedSettings (flash.edit (countEdit count)) = storedSettings flash :=
  storedSettings_edit flash _ countKey_ne_settingsKey.symm

theorem storedSettings_saveEdit (cow : Cow) (index : Nat) :
    storedSettings (flash.edit (saveEdit cow index)) = storedSettings flash :=
  storedSettings_edit flash _ (slotKey_ne_settingsKey index).symm

theorem storedSettings_eraseEdit (index : Nat) :
    storedSettings (flash.edit (eraseEdit index)) = storedSettings flash :=
  storedSettings_edit flash _ (slotKey_ne_settingsKey index).symm

theorem fits_of_storedCow? {index : Nat} {cow : Cow} (h : storedCow? flash index = some cow) :
    cow.Fits := by
  rw [storedCow?] at h
  cases hread : flash.read space (slotKey index) Flash.blobCapacity with
  | error error => simp [hread, Except.bind, Except.toOption] at h
  | ok blob =>
    rw [hread] at h
    cases hcow : Cow.ofBlob? blob with
    | none => simp [Except.bind, cowOf, hcow, Except.toOption] at h
    | some found =>
      obtain rfl : found = cow := by simpa [Except.bind, cowOf, hcow, Except.toOption] using h
      exact Cow.fits_of_ofBlob? hcow

end Fodder.HerdStore
