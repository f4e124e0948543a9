import Fodder.Blob.Reader
import Mathlib.Tactic

/-!
# Reading back what was written

Every kind of value that records are made of is read back from the bytes written for it, whatever
follows them. The bytes are few: a number takes at most ten of them, a text ten more than it has
itself.
-/
namespace Fodder.Blob

variable {α β : Type}

/-- The reader takes exactly these bytes off the front and gives this value for them. -/
def Reader.Takes (r : Reader α) (bytes : List UInt8) (x : α) : Prop :=
  ∀ rest, r (bytes ++ rest) = some (x, rest)

namespace Reader

theorem Takes.pure (x : α) : Takes (Pure.pure x : Reader α) [] x := fun _ => rfl

theorem Takes.bind {r : Reader α} {f : α → Reader β} {bytes more : List UInt8} {x : α} {y : β}
    (hr : r.Takes bytes x) (hf : (f x).Takes more y) : (r >>= f).Takes (bytes ++ more) y := by
  intro rest
  change (r (bytes ++ more ++ rest)).bind (fun p => f p.1 p.2) = _
  rw [List.append_assoc, hr, Option.bind_some]
  exact hf rest

/-- What follows takes no bytes of its own. -/
theorem Takes.andThen {r : Reader α} {f : α → Reader β} {bytes : List UInt8} {x : α} {y : β}
    (hr : r.Takes bytes x) (hf : (f x).Takes [] y) : (r >>= f).Takes bytes y := by
  have h := hr.bind hf
  rwa [List.append_nil] at h

theorem Takes.front {r : Reader α} {bytes : List UInt8} {x : α} (h : r.Takes bytes x) :
    r.front bytes = some x := by
  have hempty := h []
  rw [List.append_nil] at hempty
  unfold Reader.front
  rw [hempty]
  rfl

theorem bind_eq_some {r : Reader α} {f : α → Reader β} {input rest : List UInt8} {y : β}
    (h : (r >>= f) input = some (y, rest)) :
    ∃ x middle, r input = some (x, middle) ∧ f x middle = some (y, rest) := by
  obtain ⟨⟨x, middle⟩, hr, hf⟩ := Option.bind_eq_some_iff.1 h
  exact ⟨x, middle, hr, hf⟩

theorem takes_byte (b : UInt8) : byte.Takes [b] b := fun _ => rfl

/-! ## Numbers -/

theorem toNat_ofNat {n : Nat} (h : n < 256) : (UInt8.ofNat n).toNat = n := by
  rw [UInt8.toNat_ofNat']
  exact Nat.mod_eq_of_lt h

theorem takes_groups {room more n : Nat} (hroom : 0 < room) (hmore : room ≤ more + 1)
    (hn : n < 128 ^ room) : (groups room).Takes (Blob.groups more n) n := by
  induction room generalizing more n with
  | zero => omega
  | succ room ih =>
    intro rest
    by_cases hsmall : n < 128
    · have hsingle : Blob.groups more n = [UInt8.ofNat n] := by
        cases more with
        | zero => rfl
        | succ more => rw [Blob.groups, if_pos hsmall]
      rw [hsingle, List.singleton_append, groups, toNat_ofNat (by omega), if_pos hsmall]
    · have hroom : 0 < room := by
        by_contra hzero
        obtain rfl : room = 0 := by omega
        simp at hn
        omega
      obtain ⟨more, rfl⟩ : ∃ m, more = m + 1 := ⟨more - 1, by omega⟩
      have hdiv : n / 128 < 128 ^ room := by
        rw [Nat.pow_succ, Nat.mul_comm] at hn
        exact Nat.div_lt_of_lt_mul hn
      have hhigh : groups room (Blob.groups more (n / 128) ++ rest) = some (n / 128, rest) :=
        ih hroom (by omega) hdiv rest
      rw [Blob.groups, if_neg hsmall, List.cons_append, groups, toNat_ofNat (by omega),
        if_neg (by omega), hhigh]
      simp only [Option.map_some, Option.some.injEq, Prod.mk.injEq, and_true]
      omega

theorem takes_varint {width n : Nat} (hwidth : 0 < width) (hle : width ≤ 64) (hn : n < 2 ^ width) :
    (varint width).Takes (Blob.varint n) n := by
  have hpow : n < 128 ^ ((width + 6) / 7) := by
    calc n < 2 ^ width := hn
      _ ≤ 2 ^ (7 * ((width + 6) / 7)) := Nat.pow_le_pow_right (by decide) (by omega)
      _ = 128 ^ ((width + 6) / 7) := by rw [Nat.pow_mul]
  have hgroups : (groups ((width + 6) / 7)).Takes (Blob.groups 9 n) n :=
    takes_groups (by omega) (by omega) hpow
  have hchecked : Takes (if n < Nat.pow 2 width then Pure.pure n else failure) [] n := by
    have hn : n < Nat.pow 2 width := hn
    rw [if_pos hn]
    exact Takes.pure n
  exact hgroups.andThen hchecked

theorem unzigzag_zigzag (n : Int) : unzigzag (zigzag n) = n := by
  rw [zigzag]
  split
  · rw [unzigzag, if_pos (by omega)]
    omega
  · rw [unzigzag, if_neg (by omega)]
    omega

theorem takes_signed (n : Int64) : signed.Takes (Blob.signed n) n := by
  have hlow := n.le_toInt
  have hhigh := n.toInt_lt
  have hsize : zigzag n.toInt < 2 ^ 64 := by
    rw [zigzag]
    split <;> omega
  apply (takes_varint (by decide) le_rfl hsize).andThen
  rw [unzigzag_zigzag, Int64.ofInt_toInt]
  exact Takes.pure n

theorem word_bytes (w : UInt32) :
    w.toUInt8.toUInt32 + (w >>> 8).toUInt8.toUInt32 <<< 8 + (w >>> 16).toUInt8.toUInt32 <<< 16 +
      (w >>> 24).toUInt8.toUInt32 <<< 24 = w := by
  have hw := w.toNat_lt
  apply UInt32.toNat.inj
  simp [Nat.shiftRight_eq_div_pow, Nat.shiftLeft_eq]
  omega

theorem takes_word (w : UInt32) : word.Takes (Blob.word w) w := by
  intro rest
  simp only [Blob.word, List.cons_append, List.nil_append]
  conv_rhs => rw [← word_bytes w]
  rfl

/-! ## Texts and lists -/

theorem takes_bytes (bs : List UInt8) : (bytes bs.length).Takes bs bs := by
  intro rest
  rw [bytes, if_pos (by simp), List.take_left', List.drop_left'] <;> rfl

theorem utf8_utf8 (s : String) : utf8 (Blob.utf8 s) = some s := by
  rw [utf8, Blob.utf8]
  exact dif_pos s.isValidUTF8

theorem length_utf8 (s : String) : (Blob.utf8 s).length = s.utf8ByteSize := by
  rw [Blob.utf8, Array.length_toList]
  rfl

theorem takes_lift {answer : Option α} {x : α} (h : answer = some x) :
    Takes (liftM answer) [] x := by
  subst h
  exact fun _ => rfl

theorem takes_text {room : Nat} {s : String} (hroom : room < 2 ^ 64) (hs : s.utf8ByteSize ≤ room) :
    (text room).Takes (Blob.text s) s := by
  have hlength : (Blob.utf8 s).length < 2 ^ 64 := by
    rw [length_utf8]
    omega
  apply (takes_varint (by decide) le_rfl hlength).bind
  have hchecked : Takes (if s.utf8ByteSize ≤ room then Pure.pure s else failure) [] s := by
    rw [if_pos hs]
    exact Takes.pure s
  exact (takes_bytes (Blob.utf8 s)).andThen ((takes_lift (utf8_utf8 s)).andThen hchecked)

theorem takes_items {item : Reader α} {write : α → List UInt8} {xs : List α}
    (h : ∀ x ∈ xs, item.Takes (write x) x) : (items item xs.length).Takes (xs.flatMap write) xs := by
  induction xs with
  | nil => exact Takes.pure []
  | cons x xs ih =>
    rw [List.flatMap_cons, List.length_cons, items]
    apply (h x List.mem_cons_self).bind
    have hxs := ih fun y hy => h y (List.mem_cons_of_mem x hy)
    exact hxs.andThen (Takes.pure (x :: xs))

theorem takes_list {item : Reader α} {write : α → List UInt8} {room : Nat} {xs : List α}
    (hroom : room < 2 ^ 64) (hxs : xs.length ≤ room) (h : ∀ x ∈ xs, item.Takes (write x) x) :
    (list room item).Takes (Blob.list write xs) xs := by
  apply (takes_varint (by decide) le_rfl (hxs.trans_lt hroom)).bind
  rw [if_pos hxs]
  exact takes_items h

/-! ## What a reader lets through -/

theorem size_le_of_text {room : Nat} {input rest : List UInt8} {s : String}
    (h : text room input = some (s, rest)) : s.utf8ByteSize ≤ room := by
  obtain ⟨length, _, -, h⟩ := bind_eq_some h
  obtain ⟨bs, _, -, h⟩ := bind_eq_some h
  obtain ⟨t, _, -, h⟩ := bind_eq_some h
  split at h
  · rename_i hle
    cases h
    exact hle
  · cases h

theorem length_of_items {item : Reader α} {n : Nat} {input rest : List UInt8} {xs : List α}
    (h : items item n input = some (xs, rest)) : xs.length = n := by
  induction n generalizing input xs with
  | zero =>
    cases h
    rfl
  | succ n ih =>
    obtain ⟨x, _, -, h⟩ := bind_eq_some h
    obtain ⟨ys, _, hys, h⟩ := bind_eq_some h
    cases h
    rw [List.length_cons, ih hys]

theorem length_le_of_list {item : Reader α} {room : Nat} {input rest : List UInt8} {xs : List α}
    (h : list room item input = some (xs, rest)) : xs.length ≤ room := by
  obtain ⟨length, _, -, h⟩ := bind_eq_some h
  split at h
  · rename_i hle
    rwa [length_of_items h]
  · cases h

end Reader

/-! ## How much is written -/

theorem length_groups_le (more n : Nat) : (groups more n).length ≤ more + 1 := by
  induction more generalizing n with
  | zero => simp [groups]
  | succ more ih =>
    rw [groups]
    split
    · simp
    · exact Nat.succ_le_succ (ih _)

theorem length_varint_le (n : Nat) : (varint n).length ≤ 10 := length_groups_le 9 n

theorem length_text_le (s : String) : (text s).length ≤ 10 + s.utf8ByteSize := by
  rw [text, List.length_append, Reader.length_utf8]
  exact Nat.add_le_add_right (length_varint_le _) _

theorem length_list_le {write : α → List UInt8} {bound : Nat} (xs : List α)
    (h : ∀ x ∈ xs, (write x).length ≤ bound) : (list write xs).length ≤ 10 + bound * xs.length := by
  have hitems : (xs.flatMap write).length ≤ bound * xs.length := by
    induction xs with
    | nil => simp
    | cons x xs ih =>
      have hx := h x List.mem_cons_self
      have hxs := ih fun y hy => h y (List.mem_cons_of_mem x hy)
      rw [List.flatMap_cons, List.length_append, List.length_cons, Nat.mul_succ]
      omega
  rw [list, List.length_append]
  exact Nat.add_le_add (length_varint_le _) hitems

end Fodder.Blob
