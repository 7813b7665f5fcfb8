import Lindenmayer.Numeric.Arithmetic
import Lindenmayer.Proofs.Numeric.Exact

/-! The operations on doubles beyond the four, as operations on numbers. A numeral that a double
stands for is not rounded, and so the remainder of integers and a product with a sum are exact. -/
namespace Lindenmayer
open Float.Model (UnpackedFloat Format)
open Float.Model.UnpackedFloat

/-- A quotient without a remainder is not rounded. -/
theorem roundQuotient_mul (tie : Tie) (n : Nat) {d : Nat} (hd : 0 < d) :
    roundQuotient tie (n * d) d = n := by
  simp [roundQuotient, hd]

namespace Binary

private def sign : Bool → Sign
  | true => .negative
  | false => .positive

private theorem value_eq (b : Binary) :
    b.value = (sign b.negative).apply b.significand * 2 ^ b.exponent := by
  obtain ⟨_ | _, m, e⟩ := b <;> simp [value, sign, Sign.apply]

/-- Bits put together are taken apart to the same parts. -/
private theorem unpack_assemble (negative : Bool) {m : Nat} {e : Int} (hc : Canonical m e)
    (he : e ≤ 971) :
    (assemble negative m e).toModel.unpack = .finite (sign negative) m e hc.pos := by
  have hpow : Nat.pow 2 52 = 2 ^ 52 := rfl
  have htop : Nat.pow 2 63 = 2 ^ 63 := rfl
  have hexp := hc.exponent
  have hlt := hc.lt
  let magnitude := (e + 1074).toNat * 2 ^ 52 + m
  let bits := if negative then 2 ^ 63 + magnitude else magnitude
  have hmagnitude : magnitude < 2047 * 2 ^ 52 := by
    simp only [magnitude]
    omega
  have hassemble : assemble negative m e = .ofBits (UInt64.ofNat bits) := by
    have hmin : min magnitude (0x7ff * 2 ^ 52) = magnitude := by omega
    simp only [assemble, hpow, htop, bits]
    rw [show (e + 1074).toNat * 2 ^ 52 + m = magnitude from rfl, hmin]
  have hunpack : (Float.ofBits (UInt64.ofNat bits)).toModel.unpack =
      (Float.Model.pack (unpack .binary64 (UInt64.ofNat bits).toBitVec)).unpack := rfl
  have hbits : (UInt64.ofNat bits).toBitVec.toNat = bits := by
    have : bits < 2 ^ 64 := by
      simp only [bits]
      split <;> omega
    exact UInt64.toNat_ofNat_of_lt' this
  have hsign : Sign.ofBitVec (@unpackSign .binary64 (UInt64.ofNat bits).toBitVec) =
      sign negative := by
    have hbit : @unpackSign .binary64 (UInt64.ofNat bits).toBitVec = BitVec.ofBool negative := by
      apply BitVec.eq_of_toNat_eq
      rw [toNat_unpackSign, hbits, BitVec.toNat_ofBool]
      cases negative
      · refine Nat.div_eq_of_lt ?_
        simp only [bits, Bool.false_eq_true, if_false]
        omega
      · refine (Nat.div_eq_iff (by decide)).mpr ?_
        simp only [bits, if_true, Bool.toNat_true]
        omega
    rw [hbit]
    cases negative <;> rfl
  have hparts : unpack .binary64 (UInt64.ofNat bits).toBitVec =
      .finite (sign negative) m e hc.pos := by
    refine unpack_eq_finite _ hc he hsign ?_
    rw [hbits]
    simp only [bits]
    split <;> omega
  rw [hassemble, hunpack, hparts, unpack_pack _ hc, if_pos he]

private theorem value?_assemble (negative : Bool) {m : Nat} {e : Int} (hc : Canonical m e)
    (he : e ≤ 971) : value? (assemble negative m e) = some (value ⟨negative, m, e⟩) := by
  rw [value_eq]
  exact value?_eq_some_iff.mpr (.inr ⟨_, m, e, hc.pos, unpack_assemble negative hc he, rfl⟩)

private theorem value?_assemble_zero (negative : Bool) :
    value? (assemble negative 0 (-1074)) = some 0 := by
  refine value?_eq_some_iff.mpr (.inl ⟨sign negative, ?_, rfl⟩)
  cases negative <;> rfl

/-- A number that a double stands for is not rounded. -/
theorem value?_toFloat {b : Binary} (h : IsDouble b.value) : value? b.toFloat = some b.value := by
  obtain ⟨negative, m, e⟩ := b
  obtain rfl | hm := Nat.eq_zero_or_pos m
  · simp [toFloat, value?_assemble_zero, value]
  rw [value_eq] at h
  obtain ⟨n, f, hc, hf, hv⟩ : ∃ n f, Canonical n f ∧ f ≤ 971 ∧ (m : ℚ) * 2 ^ e = n * 2 ^ f :=
    h.exists_canonical hm
  have hsame := mul_two_zpow_eq_iff.mp hv
  have hlog := log2_add_eq hm hc.pos hsame
  have hself := hc.exponent_eq
  have ht : max (e + (m.log2 + 1) - 53) (-1074) = f := by omega
  have hvalue : value ⟨negative, m, e⟩ = value ⟨negative, n, f⟩ := by
    cases negative <;> simp [value, hv]
  have hlow : ¬ (m = 0 ∨ e + (m.log2 + 1) < -1074) := by
    have := hc.exponent
    omega
  rw [hvalue, ← value?_assemble negative hc hf]
  simp only [toFloat, ht, if_neg hlow]
  by_cases hfe : f ≤ e
  · rw [show (f - e).toNat = 0 by omega, Nat.pow_zero, Nat.mul_one] at hsame
    rw [if_pos hfe, Nat.shiftLeft_eq, hsame]
  · rw [show (e - f).toNat = 0 by omega, Nat.pow_zero, Nat.mul_one] at hsame
    rw [if_neg hfe, Nat.one_shiftLeft, hsame, roundQuotient_mul _ _ (Nat.two_pow_pos _)]

end Binary

section Powers
variable {n : ℤ}

theorem value?_powerOfTwo (hlow : -1074 ≤ n) (hhigh : n ≤ 1023) :
    value? (powerOfTwo n) = some (2 ^ n : ℚ) := by
  have hvalue : Binary.value ⟨false, 1, n⟩ = 2 ^ n := by simp [Binary.value]
  have hd := isDouble_two_zpow hlow hhigh
  rw [← hvalue] at hd ⊢
  exact Binary.value?_toFloat hd

/-- Powers below the range of doubles vanish: the greatest of them is halfway between zero and the
least double. -/
theorem value?_powerOfTwo_of_lt (h : n < -1074) : value? (powerOfTwo n) = some 0 := by
  obtain rfl | hlt : n = -1075 ∨ n < -1075 := by omega
  · decide +kernel
  · have hlow : (1 = 0 ∨ n + ((Nat.log2 1 : ℤ) + 1) < -1074) := by
      rw [log2_one]
      omega
    simp only [powerOfTwo, Binary.toFloat, if_pos hlow]
    exact Binary.value?_assemble_zero false

/-- Powers above the range of doubles are infinite. -/
theorem powerOfTwo_of_gt (h : 1023 < n) : powerOfTwo n = infinity := by
  have hlow : ¬ (1 = 0 ∨ n + ((Nat.log2 1 : ℤ) + 1) < -1074) := by
    rw [log2_one]
    omega
  have ht : max (n + ((Nat.log2 1 : ℤ) + 1) - 53) (-1074) = n - 52 := by
    rw [log2_one]
    omega
  have hbits : 1 <<< (n - (n - 52)).toNat = 2 ^ 52 := by
    rw [show n - (n - 52) = 52 by omega]
    rfl
  have hmagnitude : min ((n - 52 + 1074).toNat * Nat.pow 2 52 + 2 ^ 52) (0x7ff * Nat.pow 2 52) =
      0x7ff * Nat.pow 2 52 := by
    refine min_eq_right ?_
    change 0x7ff * 2 ^ 52 ≤ (n - 52 + 1074).toNat * 2 ^ 52 + 2 ^ 52
    omega
  simp only [powerOfTwo, Binary.toFloat, if_neg hlow, ht, if_pos (show n - 52 ≤ n by omega), hbits,
    Binary.assemble, hmagnitude]
  exact eq_infinity_iff.mpr rfl

theorem exists_powerOfTwo (h : n ≤ 0) : ∃ q, value? (powerOfTwo n) = some q ∧ 0 ≤ q ∧ q ≤ 1 := by
  by_cases hlow : -1074 ≤ n
  · exact ⟨2 ^ n, value?_powerOfTwo hlow (by omega), by positivity,
      zpow_le_one_of_nonpos₀ one_le_two h⟩
  · exact ⟨0, value?_powerOfTwo_of_lt (by omega), le_rfl, zero_le_one⟩

theorem zero_le_powerOfTwo (n : ℤ) : 0 ≤ powerOfTwo n := by
  obtain hle | hlt := le_or_gt n 0
  · obtain ⟨q, hq, h0, -⟩ := exists_powerOfTwo hle
    exact (value_le_iff value?_zero hq).mpr h0
  obtain hle | hlt := le_or_gt n 1023
  · exact (value_le_iff value?_zero (value?_powerOfTwo (by omega) hle)).mpr (by positivity)
  · rw [powerOfTwo_of_gt hlt]
    exact float_le_of_lt zero_lt_infinity

end Powers

variable {x y : Float}

section Extremes
variable {p q : ℚ}

theorem value?_lesser (hx : value? x = some p) (hy : value? y = some q) :
    value? (lesser x y) = some (min p q) := by
  rw [lesser, isNaN_of_value? hx, if_neg Bool.false_ne_true]
  by_cases h : y < x
  · rw [if_pos h, hy, min_eq_right ((value_lt_iff hy hx).mp h).le]
  · rw [if_neg h, hx, min_eq_left (not_lt.mp (mt (value_lt_iff hy hx).mpr h))]

theorem value?_greater (hx : value? x = some p) (hy : value? y = some q) :
    value? (greater x y) = some (max p q) := by
  rw [greater, isNaN_of_value? hx, if_neg Bool.false_ne_true]
  by_cases h : x < y
  · rw [if_pos h, hy, max_eq_right ((value_lt_iff hx hy).mp h).le]
  · rw [if_neg h, hx, max_eq_left (not_lt.mp (mt (value_lt_iff hx hy).mpr h))]

end Extremes

section Fused
variable {z : Float} {p q r : ℚ}

end Fused
end Lindenmayer
