import Fodder.Herd.Store
import Fodder.Proofs.Blob.Records

/-!
# How far a reader reads

A reader looks at the bytes that it takes and at no others, so what follows them cannot change what
it gives. A written record is taken to its last byte, and a first part of it that lacks a byte is no
record at all. Padding is let through, but only ever makes a record longer: what is read from bytes
is written in no more of them.
-/
namespace Fodder

namespace Blob.Reader

variable {α β : Type}

/-- More bytes behind the input are left over, and nothing else changes. -/
def Local (r : Reader α) : Prop :=
  ∀ input more x rest, r input = some (x, rest) → r (input ++ more) = some (x, rest ++ more)

/-- What is read is written in no more bytes than were taken. -/
def Covers (r : Reader α) (write : α → List UInt8) : Prop :=
  ∀ input x rest, r input = some (x, rest) → (write x).length + rest.length ≤ input.length

/-! ## Torn records -/

/-- A written record lacks no byte at its end. -/
theorem Takes.eq_none_of_cut {r : Reader α} {bytes part : List UInt8} {x : α}
    (htakes : r.Takes bytes x) (hlocal : r.Local) (hpart : part <+: bytes) (hne : part ≠ bytes) :
    r part = none := by
  obtain ⟨more, rfl⟩ := hpart
  cases hread : r part with
  | none => rfl
  | some answer =>
    obtain ⟨y, rest⟩ := answer
    have hall := htakes []
    rw [List.append_nil, hlocal part more y rest hread] at hall
    have hnone : rest ++ more = [] := (Prod.mk.inj (Option.some.inj hall)).2
    rw [(List.append_eq_nil_iff.1 hnone).2, List.append_nil] at hne
    exact absurd rfl hne

theorem local_pure (x : α) : Local (pure x : Reader α) := by
  intro input more y rest h
  obtain ⟨rfl, rfl⟩ := Prod.mk.inj (Option.some.inj h)
  rfl

theorem Local.bind {r : Reader α} {f : α → Reader β} (hr : r.Local) (hf : ∀ x, (f x).Local) :
    (r >>= f).Local := by
  intro input more y rest h
  obtain ⟨x, middle, hread, hnext⟩ := bind_eq_some h
  change (r (input ++ more)).bind (fun p => f p.1 p.2) = _
  rw [hr input more x middle hread, Option.bind_some]
  exact hf x middle more y rest hnext

theorem local_lift (answer : Option α) : Local (liftM answer) := by
  intro input more y rest h
  cases answer with
  | none => cases h
  | some x =>
    obtain ⟨rfl, rfl⟩ := Prod.mk.inj (Option.some.inj h)
    rfl

/-- A condition on what was read looks at no bytes. -/
theorem Local.guard {r : Reader α} (hr : r.Local) (p : Prop) [Decidable p] :
    Local (if p then r else failure) := by
  intro input more y rest h
  split_ifs at h ⊢
  · exact hr input more y rest h
  · cases h

theorem local_byte : Local byte := by
  intro input more b rest h
  cases input with
  | nil => cases h
  | cons a input =>
    obtain ⟨rfl, rfl⟩ := Prod.mk.inj (Option.some.inj h)
    rfl

theorem local_groups (room : Nat) : Local (groups room) := by
  induction room with
  | zero =>
    intro input more n rest h
    cases h
  | succ room ih =>
    intro input more n rest h
    cases input with
    | nil => cases h
    | cons b input =>
      rw [groups] at h
      rw [List.cons_append, groups]
      split_ifs at h ⊢
      · obtain ⟨rfl, rfl⟩ := Prod.mk.inj (Option.some.inj h)
        rfl
      · obtain ⟨⟨high, later⟩, hhigh, heq⟩ := Option.map_eq_some_iff.1 h
        obtain ⟨rfl, rfl⟩ := Prod.mk.inj heq
        rw [ih input more high later hhigh, Option.map_some]

theorem local_varint (width : Nat) : Local (varint width) :=
  (local_groups _).bind fun n => (local_pure n).guard _

theorem local_signed : Local signed := (local_varint 64).bind fun _ => local_pure _

theorem local_word : Local word :=
  local_byte.bind fun _ => local_byte.bind fun _ => local_byte.bind fun _ => local_byte.bind fun _ =>
    local_pure _

theorem local_bytes (n : Nat) : Local (bytes n) := by
  intro input more bs rest h
  rw [bytes] at h
  split_ifs at h with hlength
  obtain ⟨rfl, rfl⟩ := Prod.mk.inj (Option.some.inj h)
  have hmore : n ≤ (input ++ more).length := by
    rw [List.length_append]
    exact hlength.trans (Nat.le_add_right _ _)
  rw [bytes, if_pos hmore, List.take_append_of_le_length hlength,
    List.drop_append_of_le_length hlength]

theorem local_text (room : Nat) : Local (text room) :=
  (local_varint 64).bind fun length => (local_bytes length).bind fun _ =>
    (local_lift _).bind fun s => (local_pure s).guard _

theorem local_items {item : Reader α} (h : item.Local) (n : Nat) : Local (items item n) := by
  induction n with
  | zero => exact local_pure []
  | succ n ih => exact h.bind fun x => ih.bind fun xs => local_pure (x :: xs)

theorem local_list {item : Reader α} (h : item.Local) (room : Nat) : Local (list room item) :=
  (local_varint 64).bind fun length => (local_items h length).guard _

/-! ## Padded records -/

theorem covers_byte : byte.Covers fun b => [b] := by
  intro input b rest h
  cases input with
  | nil => cases h
  | cons a input =>
    obtain ⟨rfl, rfl⟩ := Prod.mk.inj (Option.some.inj h)
    exact (Nat.add_comm _ _).le

theorem covers_groups (room more : Nat) : (groups room).Covers (Blob.groups more) := by
  induction room generalizing more with
  | zero =>
    intro input n rest h
    cases h
  | succ room ih =>
    intro input n rest h
    cases input with
    | nil => cases h
    | cons b input =>
      rw [groups] at h
      split_ifs at h with hlast
      · obtain ⟨rfl, rfl⟩ := Prod.mk.inj (Option.some.inj h)
        cases more with
        | zero => exact (Nat.add_comm _ _).le
        | succ more =>
          rw [Blob.groups, if_pos hlast]
          exact (Nat.add_comm _ _).le
      · obtain ⟨⟨high, later⟩, hhigh, heq⟩ := Option.map_eq_some_iff.1 h
        obtain ⟨rfl, rfl⟩ := Prod.mk.inj heq
        cases more with
        | zero =>
          have htaken := ih 0 input high later hhigh
          simp only [Blob.groups, List.length_cons] at htaken ⊢
          omega
        | succ more =>
          have htaken := ih more input high later hhigh
          have hdiv : (b.toNat - 128 + 128 * high) / 128 = high := by
            have hb := b.toNat_lt
            omega
          rw [Blob.groups, hdiv]
          split_ifs
          · simp only [List.length_cons, List.length_nil]
            omega
          · simp only [List.length_cons]
            omega

theorem covers_varint (width : Nat) : (varint width).Covers Blob.varint := by
  intro input n rest h
  obtain ⟨m, middle, hgroups, h⟩ := bind_eq_some h
  split_ifs at h
  · obtain ⟨rfl, rfl⟩ := Prod.mk.inj (Option.some.inj h)
    exact covers_groups _ 9 input m middle hgroups
  · cases h

theorem lt_of_varint {width n : Nat} {input rest : List UInt8}
    (h : varint width input = some (n, rest)) : n < 2 ^ width := by
  obtain ⟨m, middle, -, h⟩ := bind_eq_some h
  split_ifs at h with hlt
  · obtain ⟨rfl, rfl⟩ := Prod.mk.inj (Option.some.inj h)
    exact hlt
  · cases h

theorem zigzag_unzigzag (n : Nat) : zigzag (unzigzag n) = n := by
  rw [unzigzag]
  split_ifs
  · rw [zigzag, if_pos (by omega)]
    omega
  · rw [zigzag, if_neg (by omega)]
    omega

theorem covers_signed : signed.Covers Blob.signed := by
  intro input day rest h
  obtain ⟨n, middle, hn, h⟩ := bind_eq_some h
  obtain ⟨rfl, rfl⟩ := Prod.mk.inj (Option.some.inj h)
  have hlt := lt_of_varint hn
  have hrange : (Int64.ofInt (unzigzag n)).toInt = unzigzag n := by
    have hsize : (Int64.size : Int) = 2 ^ 64 := rfl
    rw [Int64.toInt_ofInt, unzigzag]
    split_ifs
    · exact Int.bmod_eq_of_le (by omega) (by omega)
    · exact Int.bmod_eq_of_le (by omega) (by omega)
  have hwritten : Blob.signed (Int64.ofInt (unzigzag n)) = Blob.varint n := by
    rw [Blob.signed, hrange, zigzag_unzigzag]
  rw [hwritten]
  exact covers_varint 64 input n middle hn

theorem covers_word : word.Covers Blob.word := by
  intro input w rest h
  obtain ⟨a, first, ha, h⟩ := bind_eq_some h
  obtain ⟨b, second, hb, h⟩ := bind_eq_some h
  obtain ⟨c, third, hc, h⟩ := bind_eq_some h
  obtain ⟨d, fourth, hd, h⟩ := bind_eq_some h
  obtain ⟨rfl, rfl⟩ := Prod.mk.inj (Option.some.inj h)
  have h1 := covers_byte _ _ _ ha
  have h2 := covers_byte _ _ _ hb
  have h3 := covers_byte _ _ _ hc
  have h4 := covers_byte _ _ _ hd
  simp only [List.length_singleton] at h1 h2 h3 h4
  have hword (w : UInt32) : (Blob.word w).length = 4 := rfl
  rw [hword]
  omega

theorem utf8_eq_some {bs : List UInt8} {s : String} (h : utf8 bs = some s) : Blob.utf8 s = bs := by
  rw [utf8, String.fromUTF8?] at h
  split_ifs at h
  obtain rfl := Option.some.inj h
  rfl

theorem bytes_eq_some {n : Nat} {input bs rest : List UInt8} (h : bytes n input = some (bs, rest)) :
    input = bs ++ rest ∧ bs.length = n := by
  rw [bytes] at h
  split_ifs at h with hlength
  obtain ⟨rfl, rfl⟩ := Prod.mk.inj (Option.some.inj h)
  exact ⟨(List.take_append_drop n input).symm, List.length_take_of_le hlength⟩

theorem lift_eq_some {answer : Option α} {x : α} {input rest : List UInt8}
    (h : (liftM answer : Reader α) input = some (x, rest)) : answer = some x ∧ rest = input := by
  cases answer with
  | none => cases h
  | some y =>
    obtain ⟨rfl, rfl⟩ := Prod.mk.inj (Option.some.inj h)
    exact ⟨rfl, rfl⟩

theorem covers_text (room : Nat) : (text room).Covers Blob.text := by
  intro input s rest h
  obtain ⟨length, middle, hlength, h⟩ := bind_eq_some h
  obtain ⟨bs, later, hbytes, h⟩ := bind_eq_some h
  obtain ⟨t, _, hutf8, h⟩ := bind_eq_some h
  split_ifs at h
  · obtain ⟨rfl, rfl⟩ := Prod.mk.inj (Option.some.inj h)
    obtain ⟨hread, rfl⟩ := lift_eq_some hutf8
    obtain ⟨rfl, rfl⟩ := bytes_eq_some hbytes
    have hprefix := covers_varint 64 input bs.length _ hlength
    rw [Blob.text, utf8_eq_some hread, List.length_append]
    rw [List.length_append] at hprefix
    omega
  · cases h

theorem covers_items {item : Reader α} {write : α → List UInt8} (h : item.Covers write) (n : Nat) :
    (items item n).Covers (List.flatMap write) := by
  induction n with
  | zero =>
    intro input xs rest hread
    obtain ⟨rfl, rfl⟩ := Prod.mk.inj (Option.some.inj hread)
    simp
  | succ n ih =>
    intro input xs rest hread
    obtain ⟨x, middle, hx, hread⟩ := bind_eq_some hread
    obtain ⟨ys, later, hys, hread⟩ := bind_eq_some hread
    obtain ⟨rfl, rfl⟩ := Prod.mk.inj (Option.some.inj hread)
    have hfirst := h input x middle hx
    have hothers := ih middle ys later hys
    rw [List.flatMap_cons, List.length_append]
    omega

theorem covers_list {item : Reader α} {write : α → List UInt8} (h : item.Covers write) (room : Nat) :
    (list room item).Covers (Blob.list write) := by
  intro input xs rest hread
  obtain ⟨length, middle, hlength, hread⟩ := bind_eq_some hread
  split_ifs at hread
  · have hprefix := covers_varint 64 input length middle hlength
    have hitems := covers_items h length middle xs rest hread
    rw [Blob.list, length_of_items hread, List.length_append]
    omega
  · cases hread

end Blob.Reader

open Blob

/-! ## Cows -/

theorem Feed.local_reader : Feed.reader.Local :=
  Reader.local_byte.bind fun _ => (Reader.local_varint 32).bind fun _ => Reader.local_pure _

theorem Feed.covers_reader : Feed.reader.Covers Feed.blob := by
  intro input feed rest h
  obtain ⟨station, middle, hstation, h⟩ := Reader.bind_eq_some h
  obtain ⟨minute, later, hminute, h⟩ := Reader.bind_eq_some h
  obtain ⟨rfl, rfl⟩ := Prod.mk.inj (Option.some.inj h)
  have hfirst := Reader.covers_byte _ _ _ hstation
  have hsecond := Reader.covers_varint 32 _ _ _ hminute
  have hvalue : (UInt32.ofNat minute).toNat = minute :=
    UInt32.toNat_ofNat_of_lt' (Reader.lt_of_varint hminute)
  simp only [Feed.blob, hvalue, List.length_cons, List.length_nil] at hfirst ⊢
  omega

namespace Cow

variable {cow : Cow}

theorem local_reader : reader.Local :=
  (Reader.local_text _).bind fun _ => (Reader.local_text _).bind fun _ =>
    (Reader.local_varint 16).bind fun _ => Reader.local_word.bind fun _ =>
      Reader.local_signed.bind fun _ => (Reader.local_list Feed.local_reader _).bind fun _ =>
        Reader.local_pure _

theorem covers_reader : reader.Covers fields := by
  intro input cow rest h
  obtain ⟨name, _, hname, h⟩ := Reader.bind_eq_some h
  obtain ⟨earTag, _, hear, h⟩ := Reader.bind_eq_some h
  obtain ⟨collar, _, hcollar, h⟩ := Reader.bind_eq_some h
  obtain ⟨ration, _, hration, h⟩ := Reader.bind_eq_some h
  obtain ⟨day, _, hday, h⟩ := Reader.bind_eq_some h
  obtain ⟨feeds, _, hfeeds, h⟩ := Reader.bind_eq_some h
  obtain ⟨rfl, rfl⟩ := Prod.mk.inj (Option.some.inj h)
  have hvalue : (UInt16.ofNat collar).toNat = collar :=
    UInt16.toNat_ofNat_of_lt' (Reader.lt_of_varint hcollar)
  have h1 := Reader.covers_text _ _ _ _ hname
  have h2 := Reader.covers_text _ _ _ _ hear
  have h3 := Reader.covers_varint _ _ _ _ hcollar
  have h4 := Reader.covers_word _ _ _ hration
  have h5 := Reader.covers_signed _ _ _ hday
  have h6 := Reader.covers_list Feed.covers_reader _ _ _ _ hfeeds
  simp only [fields, hvalue, List.length_append]
  omega

/-- A blob that lacks bytes at its end is no cow's. -/
theorem ofBlob?_eq_none_of_cut (h : cow.Fits) {part : List UInt8} (hpart : part <+: cow.blob)
    (hne : part ≠ cow.blob) : ofBlob? part = none := by
  cases part with
  | nil => rfl
  | cons version rest =>
    obtain ⟨rfl, hrest⟩ := List.cons_prefix_cons.1 hpart
    have hne : rest ≠ cow.fields := fun heq => hne (congrArg (layout :: ·) heq)
    have hread : reader rest = none :=
      (takes_reader h).eq_none_of_cut local_reader hrest hne
    rw [ofBlob?, if_pos rfl, Reader.front, hread]
    rfl

/-- A cow is read back whatever stands behind its blob. -/
theorem ofBlob?_blob_append (h : cow.Fits) (rest : List UInt8) :
    ofBlob? (cow.blob ++ rest) = some cow := by
  rw [blob, List.cons_append, ofBlob?, if_pos rfl, Reader.front, takes_reader h]
  rfl

theorem length_blob_le_of_ofBlob? {bytes : List UInt8} (h : ofBlob? bytes = some cow) :
    cow.blob.length ≤ bytes.length := by
  rw [ofBlob?.eq_def] at h
  split at h
  · rename_i version input
    split_ifs at h
    obtain ⟨⟨found, rest⟩, hread, rfl⟩ := Option.map_eq_some_iff.1 h
    have hcovered := covers_reader input found rest hread
    rw [blob, List.length_cons, List.length_cons]
    exact Nat.succ_le_succ ((Nat.le_add_right _ _).trans hcovered)
  · cases h

end Cow

namespace HerdStore

theorem cowOf_eq_ok_iff {bytes : List UInt8} {cow : Cow} :
    cowOf bytes = .ok cow ↔ Cow.ofBlob? bytes = some cow := by
  rw [cowOf]
  cases Cow.ofBlob? bytes <;> simp

/-- A cow is read back from her blob, whatever follows it; without its last bytes a blob is corrupted;
and what is read from a blob, padded or not, is written in one no longer, from which it is read
again. -/
theorem cowOf_stored :
    (∀ cow : Cow, cow.Fits →
      (∀ rest, cowOf (cow.blob ++ rest) = .ok cow) ∧
        ∀ part, part <+: cow.blob → part ≠ cow.blob → cowOf part = .error .corrupted) ∧
      ∀ bytes cow, cowOf bytes = .ok cow →
        cow.Fits ∧ cow.blob.length ≤ bytes.length ∧ cowOf cow.blob = .ok cow := by
  constructor
  · intro cow hfits
    constructor
    · intro rest
      exact cowOf_eq_ok_iff.2 (Cow.ofBlob?_blob_append hfits rest)
    · intro part hpart hne
      rw [cowOf, Cow.ofBlob?_eq_none_of_cut hfits hpart hne]
      rfl
  · intro bytes cow hread
    have hread := cowOf_eq_ok_iff.1 hread
    have hfits := Cow.fits_of_ofBlob? hread
    exact ⟨hfits, Cow.length_blob_le_of_ofBlob? hread, cowOf_eq_ok_iff.2 (Cow.ofBlob?_blob hfits)⟩

/-- Anna has eaten once. In her padded blob the length of the name, the collar and the minute of the
feed take a byte more each than they have to. -/
theorem cowOf_stored_padded :
    let anna : Cow := ⟨"Anna", "276000123456", 300, ⟨1082130432⟩, -1, [⟨2, 28801439⟩]⟩
    let padded : List UInt8 := [1, 132, 0, 65, 110, 110, 97, 12, 50, 55, 54, 48, 48, 48, 49, 50, 51, 52,
      53, 54, 172, 130, 0, 0, 0, 128, 64, 1, 1, 2, 159, 243, 221, 141, 0]
    anna.Fits ∧ cowOf (anna.blob ++ [7, 7]) = .ok anna ∧
      cowOf anna.blob.dropLast = .error .corrupted ∧ cowOf padded = .ok anna ∧
      anna.blob.length < padded.length ∧ cowOf anna.blob = .ok anna := by
  intro anna padded
  have hfits : anna.Fits := ⟨by decide, by decide, by decide⟩
  have hpadded : cowOf padded = .ok anna := by decide +kernel
  have hdropped : anna.blob.dropLast ≠ anna.blob := by decide +kernel
  obtain ⟨hstored, hread⟩ := cowOf_stored
  obtain ⟨hfollowed, htorn⟩ := hstored anna hfits
  exact ⟨hfits, hfollowed [7, 7], htorn _ (List.dropLast_prefix _) hdropped, hpadded,
    by decide +kernel, (hread padded anna hpadded).2.2⟩

end HerdStore

end Fodder
