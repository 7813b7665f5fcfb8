import Lindenmayer.Proofs.Numeric.Whole
import Lindenmayer.Svg.Text

/-! The levels that channels of colors are written with. A channel is held between 0 and 1, and its
level is the integer nearest to 255 times that, a half upward. -/
namespace Lindenmayer
open Float.Model (UnpackedFloat)
variable {x : Float} {q : ℚ}

section Unknown
variable (h : x.isNaN = true)
include h

theorem value?_of_isNaN : value? x = none := by
  refine Option.eq_none_iff_forall_ne_some.mpr fun q hq => ?_
  rw [isNaN_of_value? hq] at h
  cases h

private theorem not_lt_of_isNaN (y : Float) : ¬ x < y := fun hlt => by
  rw [isNaN_of_le (float_le_of_lt hlt)] at h
  cases h

private theorem not_gt_of_isNaN (y : Float) : ¬ y < x := fun hlt => by
  rw [isNaN_of_ge (float_le_of_lt hlt)] at h
  cases h

/-- A product with what is not a number is none either. -/
theorem isNaN_mul (y : Float) : (x * y).isNaN = true := by
  have hmul : x * y =
      .ofModel (.pack (UnpackedFloat.mul .binary64 x.toModel.unpack y.toModel.unpack)) := rfl
  have hnan (v : UnpackedFloat) : UnpackedFloat.mul .binary64 .notANumber v = .notANumber := rfl
  rw [isNaN_iff] at h ⊢
  rw [hmul, h, hnan]
  rfl

theorem clamp_of_isNaN (low high : Float) : clamp x low high = x := by
  simp only [clamp, if_neg (not_lt_of_isNaN h low), if_neg (not_gt_of_isNaN h high)]

theorem nearestByte_of_isNaN : nearestByte x = 0 := by
  have hnone : Binary.ofFloat? x = none := Option.map_eq_none_iff.mp (value?_of_isNaN h)
  simp only [nearestByte, hnone, if_neg (not_gt_of_isNaN h 0)]

end Unknown

/-- A number is held between two numbers, infinities too. -/
theorem exists_clamp (h : x.isNaN = false) {low high : Float} {p q : ℚ} (hp : value? low = some p)
    (hq : value? high = some q) (hpq : p ≤ q) :
    ∃ r, value? (clamp x low high) = some r ∧ p ≤ r ∧ r ≤ q := by
  unfold clamp
  by_cases hlow : x < low
  · have hhigh : ¬ high < low := mt (value_lt_iff hq hp).mp hpq.not_gt
    simp only [if_pos hlow, if_neg hhigh]
    exact ⟨p, hp, le_rfl, hpq⟩
  simp only [if_neg hlow]
  by_cases hhigh : high < x
  · rw [if_pos hhigh]
    exact ⟨q, hq, hpq, le_rfl⟩
  rw [if_neg hhigh]
  obtain rfl | rfl | ⟨r, hr⟩ := infinite_or_value? h
  · exact absurd (lt_infinity_of_value? hq) hhigh
  · exact absurd (neg_infinity_lt_of_value? hp) hlow
  · exact ⟨r, hr, not_lt.mp (mt (value_lt_iff hr hp).mpr hlow),
      not_lt.mp (mt (value_lt_iff hq hr).mpr hhigh)⟩

theorem toNat_nearestByte (h : value? x = some q) (h0 : 0 ≤ q) (h255 : q ≤ 255) :
    ((nearestByte x).toNat : ℤ) = round q := by
  obtain ⟨⟨negative, m, e⟩, hb, rfl⟩ := Option.map_eq_some_iff.mp h
  simp only [nearestByte, hb, Binary.value] at h0 h255 ⊢
  cases negative with
  | false =>
    simp only [Bool.false_eq_true, if_false] at h0 h255 ⊢
    have hle : round (m * 2 ^ e : ℚ) ≤ 255 := by
      rw [round_eq, Int.floor_le_iff]
      push_cast
      linarith
    rw [Binary.round_eq_nearest false m e] at hle ⊢
    have hbyte : Binary.nearest .awayFromZero ⟨false, m, e⟩ < UInt8.size :=
      Nat.lt_succ_of_le (by exact_mod_cast hle)
    rw [min_eq_left (Nat.le_of_lt_succ hbyte), UInt8.toNat_ofNat_of_lt' hbyte]
  | true =>
    have hzero : (m : ℚ) * 2 ^ e = 0 := le_antisymm (by simpa using h0) (by positivity)
    simp [hzero]

namespace Svg

/-- The level of a channel: the integer nearest to 255 times the channel held between 0 and 1, as
doubles, and a half upward. What is not a number has the level 0. -/
def level (x : Float) : UInt8 :=
  match value? (clamp x 0 1 * 255) with
  | none => 0
  | some q => UInt8.ofNat (round q).toNat

/-- The byte of a number is the nearest integer, which is one of those from 0 to 255. -/
theorem toNat_channel (h : x.isNaN = false) :
    ∃ q, value? (clamp x 0 1 * 255) = some q ∧ 0 ≤ q ∧ q ≤ 255 ∧
      ((channel x).toNat : ℤ) = round q := by
  have h255 : value? 255 = some 255 := value?_literal 255 (by decide)
  obtain ⟨r, hr, hr0, hr1⟩ := exists_clamp h value?_zero value?_one zero_le_one
  obtain ⟨q, hq, h0, hle⟩ := (rounds_mul hr h255).exists_value ⟨0, value?_zero⟩ (by positivity)
    ⟨255, h255⟩ (by linarith)
  exact ⟨q, hq, h0, hle, toNat_nearestByte hq h0 hle⟩

theorem channel_eq_level (x : Float) : channel x = level x := by
  unfold level
  cases h : x.isNaN with
  | true =>
    have hproduct : (clamp x 0 1 * 255).isNaN = true := by
      rw [clamp_of_isNaN h]
      exact isNaN_mul h 255
    rw [channel, nearestByte_of_isNaN hproduct, value?_of_isNaN hproduct]
  | false =>
    obtain ⟨q, hq, -, -, hround⟩ := toNat_channel h
    rw [hq]
    simp only [← hround, Int.toNat_natCast, UInt8.ofNat_toNat]

end Svg
end Lindenmayer
