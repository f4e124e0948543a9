import Fodder.Amount
import Fodder.Proofs.Share
import Mathlib.Algebra.Order.Floor.Semifield
import Mathlib.Data.Rat.Floor
import Mathlib.Tactic

/-!
# Amounts in the log

What the log should show of an amount is said in rational numbers: its size is read off the exponent
and the fraction among its bits, and the nearest whole number of hundredths is written, the even one
of two. The log shows exactly that. Digits take one byte each, so the length of the text is read off
the size: every finite amount is below `2 ^ 128`, which leaves at most 39 digits before the point; a
sign, the point and two places complete the longest text.
-/
namespace Fodder

/-! ## Digits -/

theorem utf8Size_of_isDigit {c : Char} (h : c.isDigit = true) : c.utf8Size = 1 := by
  rw [Char.isDigit, Bool.and_eq_true, decide_eq_true_eq, decide_eq_true_eq] at h
  rw [Char.utf8Size_eq_one_iff]
  exact UInt32.le_trans h.2 (by decide)

theorem utf8ByteSize_ofList {cs : List Char} (h : ∀ c ∈ cs, c.utf8Size = 1) :
    (String.ofList cs).utf8ByteSize = cs.length := by
  induction cs with
  | nil => rfl
  | cons c cs ih =>
    rw [List.forall_mem_cons] at h
    rw [String.ofList_cons, String.utf8ByteSize_append, String.utf8ByteSize_singleton, h.1, ih h.2,
      List.length_cons, Nat.add_comm]

theorem utf8Size_toDigits {n : Nat} {c : Char} (h : c ∈ Nat.toDigits 10 n) : c.utf8Size = 1 :=
  utf8Size_of_isDigit (Nat.isDigit_of_mem_toDigits (by decide) (by decide) h)

/-- A number below `10 ^ k` is written in `k` bytes. -/
theorem utf8ByteSize_toString_le {n k : Nat} (hk : 0 < k) (h : n < 10 ^ k) :
    (toString n).utf8ByteSize ≤ k := by
  rw [Nat.toString_eq_ofList_toDigits, utf8ByteSize_ofList fun _ => utf8Size_toDigits]
  exact (Nat.length_toDigits_le_iff (by decide) hk).2 h

/-! ## Rounding -/

namespace Binary

/-- The whole number nearest to a quotient that is not negative; of two the even one. -/
def nearestEven (q : ℚ) : ℕ :=
  if q < ⌊q⌋₊ + 1 / 2 ∨ q = ⌊q⌋₊ + 1 / 2 ∧ Even ⌊q⌋₊ then ⌊q⌋₊ else ⌊q⌋₊ + 1

/-- No whole number is nearer, and where another one is as near this one is even. -/
theorem abs_sub_nearestEven {q : ℚ} (h : 0 ≤ q) :
    |q - nearestEven q| ≤ 1 / 2 ∧ (|q - nearestEven q| = 1 / 2 → Even (nearestEven q)) := by
  have hfloor := Nat.floor_le h
  have hnext := Nat.lt_floor_add_one q
  unfold nearestEven
  split_ifs with hdown
  · rw [abs_of_nonneg (sub_nonneg.2 hfloor)]
    rcases hdown with hlt | ⟨htie, heven⟩
    · exact ⟨by linarith, fun hhalf => by linarith⟩
    · exact ⟨by linarith, fun _ => heven⟩
  · push Not at hdown
    push_cast
    rw [abs_of_neg (by linarith)]
    refine ⟨by linarith [hdown.1], fun hhalf => ?_⟩
    exact Nat.even_add_one.2 (hdown.2 (by linarith))

theorem nearest_eq_nearestEven (num : ℕ) {den : ℕ} (hden : 0 < den) :
    nearest num den = nearestEven (num / den) := by
  have hpos : (0 : ℚ) < den := by exact_mod_cast hden
  have hsplit : (num : ℚ) / den = (num / den : ℕ) + (num % den : ℕ) / den := by
    rw [add_div' _ _ _ hpos.ne']
    exact_mod_cast congrArg (fun n : ℕ => (n : ℚ) / den) (Nat.div_add_mod' num den).symm
  have hbelow : (num : ℚ) / den < (num / den : ℕ) + 1 / 2 ↔ 2 * (num % den) < den := by
    rw [hsplit, add_lt_add_iff_left, div_lt_div_iff₀ hpos two_pos, one_mul, mul_comm]
    exact_mod_cast Iff.rfl
  have htie : (num : ℚ) / den = (num / den : ℕ) + 1 / 2 ↔ 2 * (num % den) = den := by
    rw [hsplit, add_right_inj, div_eq_div_iff hpos.ne' two_ne_zero, one_mul, mul_comm]
    exact_mod_cast Iff.rfl
  unfold nearest nearestEven
  simp only [Nat.floor_div_eq_div, hbelow, htie, Nat.even_iff]

/-- Rounding does not go past a whole number. -/
theorem nearest_le {num den m : Nat} (h : num ≤ den * m) : nearest num den ≤ m := by
  have hquotient : num / den ≤ m := Nat.div_le_of_le_mul h
  unfold nearest
  dsimp only
  split
  · exact hquotient
  · rename_i hup
    -- What is rounded up leaves a remainder, so the quotient lies strictly below `m`.
    have hrest : 0 < num % den := by
      by_contra hzero
      rcases Nat.eq_zero_or_pos den with rfl | hden
      · simp at hup
        omega
      · omega
    have hdivision := Nat.div_add_mod num den
    exact Nat.lt_of_mul_lt_mul_left (show den * (num / den) < den * m by omega)

/-! ## Sizes of binary numbers -/

namespace Format

variable {f : Format} {a b : Nat}

theorem gap_mono (h : a ≤ b) : f.gap a ≤ f.gap b :=
  Nat.pow_le_pow_right (by decide) (Nat.sub_le_sub_right (Nat.div_le_div_right h) 1)

/-- A number has at most the significand of its binade. -/
theorem units_lt (f : Format) (code : Nat) : f.units code < 2 * f.binade * f.gap code := by
  have hbinade := f.binade_pos
  have hgap : 0 < f.gap code := Nat.pow_pos (by decide)
  unfold units
  split
  · calc code < f.binade := ‹_›
      _ ≤ 2 * f.binade := by omega
      _ ≤ 2 * f.binade * f.gap code := Nat.le_mul_of_pos_right _ hgap
  · have hrest := Nat.mod_lt code hbinade
    exact Nat.mul_lt_mul_of_pos_right (by omega) hgap

end Format

theorem Single.units_lt {x : Single} (h : x.isFinite = true) :
    single.units x.magnitude < single.one * 2 ^ 128 := by
  have hcode : x.magnitude ≤ single.infinity - 1 := Nat.le_sub_one_of_lt (of_decide_eq_true h)
  calc single.units x.magnitude < 2 * single.binade * single.gap x.magnitude := single.units_lt _
    _ ≤ 2 * single.binade * single.gap (single.infinity - 1) :=
      Nat.mul_le_mul_left _ (Format.gap_mono hcode)
    _ = single.one * 2 ^ 128 := by decide

end Binary

/-! ## Decimals -/

namespace Decimal

open Binary

variable {places num den k n : Nat} {c : Char}

theorem utf8Size_padded (h : c ∈ padded places n) : c.utf8Size = 1 := by
  rw [padded, List.leftpad, List.mem_append] at h
  obtain hzero | hdigit := h
  · rw [List.eq_of_mem_replicate hzero]
    decide
  · exact utf8Size_toDigits hdigit

theorem length_padded (hplaces : 0 < places) (h : n < 10 ^ places) :
    (padded places n).length = places := by
  rw [padded, List.length_leftpad]
  exact Nat.max_eq_left ((Nat.length_toDigits_le_iff (by decide) hplaces).2 h)

/-- Two places are the last two digits. -/
theorem fixed_two (num den : Nat) :
    fixed 2 num den =
      let n := nearest (num * 100) den
      toString (n / 100) ++ "." ++ toString (n / 10 % 10) ++ toString (n % 10) := by
  have hpadded : ∀ rest < 100,
      padded 2 rest = Nat.toDigits 10 (rest / 10) ++ Nat.toDigits 10 (rest % 10) := by
    decide +kernel
  have hfixed : fixed 2 num den =
      let n := nearest (num * 100) den
      String.ofList (Nat.toDigits 10 (n / 100) ++ '.' :: padded 2 (n % 100)) := rfl
  dsimp only at hfixed ⊢
  generalize nearest (num * 100) den = n at hfixed
  have htens : n % 100 / 10 = n / 10 % 10 := by omega
  have hones : n % 100 % 10 = n % 10 := by omega
  rw [hfixed, hpadded _ (Nat.mod_lt _ (by decide)), htens, hones]
  simp only [Nat.toString_eq_ofList_toDigits, String.ofList_append, String.ofList_cons,
    String.append_assoc]
  rfl

/-- Besides the point a decimal has the digits of the number it is made of. -/
theorem utf8ByteSize_fixed_le (hplaces : 0 < places) (hk : 0 < k)
    (h : nearest (num * 10 ^ places) den < 10 ^ (k + places)) :
    (fixed places num den).utf8ByteSize ≤ k + 1 + places := by
  have hone : 0 < 10 ^ places := by positivity
  unfold fixed
  simp only [Nat.pow_eq]
  generalize nearest (num * 10 ^ places) den = n at h
  have hwhole : n / 10 ^ places < 10 ^ k := by
    rw [Nat.div_lt_iff_lt_mul hone, ← Nat.pow_add]
    exact h
  have hdigits := (Nat.length_toDigits_le_iff (by decide) hk).2 hwhole
  have hpadded := length_padded hplaces (Nat.mod_lt n hone)
  rw [utf8ByteSize_ofList, List.length_append, List.length_cons, hpadded]
  · omega
  · intro c hc
    rcases List.mem_append.1 hc with hc | hc
    · exact utf8Size_toDigits hc
    rcases List.mem_cons.1 hc with rfl | hc
    · decide
    · exact utf8Size_padded hc

end Decimal

namespace Amount

open Binary

def exponent (kg : Amount) : ℕ := kg.bits.toNat / 2 ^ 23 % 2 ^ 8

def fraction (kg : Amount) : ℕ := kg.bits.toNat % 2 ^ 23

/-- The size of a finite amount. Numbers with exponent 0 have no leading one. -/
def size (kg : Amount) : ℚ :=
  if kg.exponent = 0 then kg.fraction / 2 ^ 23 * 2 ^ (-126 : ℤ)
  else (1 + kg.fraction / 2 ^ 23) * 2 ^ ((kg.exponent : ℤ) - 127)

def hundredths (kg : Amount) : ℕ := nearestEven (100 * kg.size)

/-- What the log should show of an amount. -/
def text (kg : Amount) : String :=
  let sign := if 2 ^ 31 ≤ kg.bits.toNat then "-" else ""
  if kg.exponent = 255 then
    if kg.fraction = 0 then sign ++ "inf" else "NaN"
  else
    sign ++ (toString (kg.hundredths / 100) ++ "." ++ toString (kg.hundredths / 10 % 10) ++
      toString (kg.hundredths % 10))

theorem size_nonneg (kg : Amount) : 0 ≤ kg.size := by
  unfold size
  positivity

theorem magnitude_div (kg : Amount) : kg.magnitude / 2 ^ 23 = kg.exponent := by
  simp only [Single.magnitude, Single.signBit, exponent]
  omega

theorem magnitude_mod (kg : Amount) : kg.magnitude % 2 ^ 23 = kg.fraction := by
  simp only [Single.magnitude, Single.signBit, fraction]
  omega

/-- Counted in units, an amount has its size. -/
theorem units_div_one (kg : Amount) : (single.units kg.magnitude : ℚ) / single.one = kg.size := by
  have hone : (single.one : ℚ) = 2 ^ 149 := by norm_num [Format.one, single]
  have hbinade : single.binade = 2 ^ 23 := rfl
  simp only [size, ← kg.magnitude_div, ← kg.magnitude_mod, hone, Format.units, Format.gap, hbinade,
    Nat.pow_eq]
  generalize kg.magnitude = code
  have hdivision := Nat.div_add_mod code (2 ^ 23)
  split_ifs with hlow hzero hzero
  · rw [Nat.mod_eq_of_lt hlow]
    norm_num [div_div]
    ring
  · omega
  · omega
  · obtain ⟨n, hn⟩ := Nat.exists_eq_add_one_of_ne_zero hzero
    have hshift : (((n + 1 : ℕ) : ℤ) - 127) = (n : ℤ) - (126 : ℕ) := by omega
    rw [hn, hshift, zpow_sub₀ two_ne_zero, zpow_natCast, zpow_natCast, Nat.add_sub_cancel]
    push_cast
    ring

theorem sign_eq (kg : Amount) : kg.sign = if 2 ^ 31 ≤ kg.bits.toNat then "-" else "" := by
  unfold sign Single.negative
  simp only [decide_eq_true_eq]
  rfl

theorem isNaN_iff (kg : Amount) : kg.isNaN = true ↔ kg.exponent = 255 ∧ kg.fraction ≠ 0 := by
  rw [Single.isNaN, decide_eq_true_eq, ← kg.magnitude_div, ← kg.magnitude_mod]
  have hmagnitude : kg.magnitude < 2 ^ 31 := Nat.mod_lt _ (by decide)
  simp only [single]
  omega

theorem isFinite_iff (kg : Amount) : kg.isFinite = true ↔ kg.exponent ≠ 255 := by
  rw [Single.isFinite, decide_eq_true_eq, ← kg.magnitude_div]
  have hmagnitude : kg.magnitude < 2 ^ 31 := Nat.mod_lt _ (by decide)
  simp only [single]
  omega

/-- The log shows of an amount what it should. -/
theorem twoPlaces_eq_text (kg : Amount) : kg.twoPlaces = kg.text := by
  have hhundredths : nearest (single.units kg.magnitude * 100) single.one = kg.hundredths := by
    rw [nearest_eq_nearestEven _ (by decide), hundredths, ← kg.units_div_one, Nat.cast_mul,
      mul_comm (single.units kg.magnitude : ℚ), mul_div_assoc]
    rfl
  unfold twoPlaces text
  simp only [Decimal.fixed_two, hhundredths, kg.sign_eq, kg.isNaN_iff, kg.isFinite_iff]
  by_cases hexponent : kg.exponent = 255
  · by_cases hfraction : kg.fraction = 0 <;> simp [hexponent, hfraction]
  · simp [hexponent]

theorem utf8ByteSize_sign_le (kg : Amount) : kg.sign.utf8ByteSize ≤ 1 := by
  unfold sign
  split <;> decide

/-- The text of an amount takes at most 43 bytes, whatever its bits are. -/
theorem utf8ByteSize_text_le (kg : Amount) : kg.text.utf8ByteSize ≤ 43 := by
  have hsign := kg.utf8ByteSize_sign_le
  rw [← kg.twoPlaces_eq_text, twoPlaces]
  split
  · decide
  split
  · rename_i hfinite
    have hunits := Single.units_lt hfinite
    have hhundredths : nearest (single.units kg.magnitude * 10 ^ 2) single.one < 10 ^ (39 + 2) :=
      (nearest_le (show _ ≤ single.one * (2 ^ 128 * 10 ^ 2) by omega)).trans_lt (by decide)
    have hfixed := Decimal.utf8ByteSize_fixed_le (by decide) (by decide) hhundredths
    rw [String.utf8ByteSize_append]
    omega
  · have hinfinity : "inf".utf8ByteSize = 3 := by decide
    rw [String.utf8ByteSize_append]
    omega

/-- The least of all finite amounts takes all of them. -/
example : text ⟨0xff7fffff⟩ = "-340282346638528859811704183484516925440.00" := by
  decide +kernel

end Amount

end Fodder
