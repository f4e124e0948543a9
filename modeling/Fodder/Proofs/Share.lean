import Fodder.Binary.Single
import Mathlib.Tactic

/-!
# When a share of an allowance is positive

An allowance is split by one rounded division. A positive allowance has a positive share unless the
exact quotient is at most half of the least positive number: then the nearest number is zero.
-/
namespace Fodder.Binary

/-- Half of one rounds to zero, which is even; whatever is more does not. -/
theorem nearest_eq_zero_iff {num den : Nat} (hden : 0 < den) :
    nearest num den = 0 ↔ 2 * num ≤ den := by
  unfold nearest
  dsimp only
  by_cases hlt : num < den
  · rw [Nat.div_eq_of_lt hlt, Nat.mod_eq_of_lt hlt]
    split <;> omega
  · have hquotient : 0 < num / den := Nat.div_pos (Nat.not_lt.1 hlt) hden
    split <;> omega

namespace Format

variable {f : Format} {num den : Nat}

theorem binade_pos (f : Format) : 0 < f.binade := Nat.pow_pos (by decide)

theorem one_pos (f : Format) : 0 < f.one := Nat.pow_pos (by decide)

/-- A quotient rounds to zero when it is at most half a unit. -/
theorem round_eq_zero_iff (hprecision : 0 < f.precision) (hinfinity : 0 < f.infinity)
    (hden : 0 < den) : f.round num den = 0 ↔ 2 * (num * f.one) ≤ den := by
  have hbinade := f.binade_pos
  unfold round
  dsimp only
  generalize hscaled : num * f.one = scaled
  generalize hshift : (scaled / den).log2 + 1 - f.precision = shift
  have hmin (code : Nat) : min f.infinity code = 0 ↔ code = 0 := by omega
  rw [hmin, Nat.add_eq_zero_iff]
  cases shift with
  | zero => simp [nearest_eq_zero_iff hden]
  | succ shift =>
    -- a shift means that the quotient has more digits than the format keeps
    have hlarge : 0 < (scaled / den).log2 := by omega
    have hquotient : scaled / den ≠ 0 := by
      intro hzero
      simp [hzero] at hlarge
    have hle : den ≤ scaled := by
      by_contra hlt
      exact hquotient (Nat.div_eq_of_lt (Nat.not_le.1 hlt))
    have hcarry : (shift + 1) * f.binade ≠ 0 := by positivity
    constructor
    · exact fun h => absurd h.1 hcarry
    · omega

theorem round_le_infinity (f : Format) (num den : Nat) : f.round num den ≤ f.infinity :=
  Nat.min_le_left _ _

end Format

namespace Single

theorem isPositive_ofMagnitude {code : Nat} (h : code ≤ single.infinity) :
    (ofMagnitude false code).isPositive = true ↔ 0 < code := by
  have hinfinity : single.infinity = 2139095040 := rfl
  have hsize : code < UInt32.size := by
    rw [show UInt32.size = 4294967296 from rfl]
    omega
  have hbits : (ofMagnitude false code).bits.toNat = code := by
    rw [ofMagnitude, if_neg (by decide), UInt32.toNat_ofNat', Nat.mod_eq_of_lt hsize]
  have hsign : signBit = 2147483648 := rfl
  simp only [isPositive, negative, magnitude, isNaN, hbits, hinfinity, hsign, Bool.and_eq_true,
    Bool.not_eq_true', decide_eq_false_iff_not, decide_eq_true_eq]
  omega

/-- The share of a positive allowance is positive unless it is at most half of the least positive
number. -/
theorem isPositive_share_iff {x : Single} (hfinite : x.isFinite = true)
    (hpositive : x.isPositive = true) {parts : UInt8} (hparts : 0 < parts.toNat) :
    (x.share parts).isPositive = true ↔ parts.toNat < 2 * single.units x.magnitude := by
  simp only [isPositive, Bool.and_eq_true, Bool.not_eq_true'] at hpositive
  obtain ⟨⟨hsign, -⟩, hnumber⟩ := hpositive
  have hne : parts ≠ 0 := by
    rintro rfl
    exact absurd hparts (by decide)
  have hone := single.one_pos
  have hround : single.round (single.units x.magnitude) (single.one * parts.toNat) = 0 ↔
      2 * (single.units x.magnitude * single.one) ≤ single.one * parts.toNat :=
    Format.round_eq_zero_iff (by decide) (by decide) (Nat.mul_pos hone hparts)
  have hcancel : 2 * (single.units x.magnitude * single.one) ≤ single.one * parts.toNat ↔
      2 * single.units x.magnitude ≤ parts.toNat := by
    rw [← Nat.mul_assoc, Nat.mul_comm _ single.one]
    exact Nat.mul_le_mul_left_iff hone
  rw [share, if_neg (by simp [hnumber]), if_neg hne, if_pos hfinite, ofRatio, hsign,
    isPositive_ofMagnitude (Format.round_le_infinity _ _ _), Nat.pos_iff_ne_zero, ne_eq, hround,
    hcancel, Nat.not_le]

end Single

end Fodder.Binary
