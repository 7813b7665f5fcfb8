import Lindenmayer.Numeric.Binary
import Mathlib

/-! The integer nearest to a number, with ties to the even one. -/
namespace Lindenmayer

/-- An integer is nearest to a number. Of two that are equally near it is the even one. -/
def IsNearest (q : ℚ) (n : ℤ) : Prop := |q - n| < 1 / 2 ∨ |q - n| = 1 / 2 ∧ Even n

section Nearest
variable {q : ℚ} {m n : ℤ}

theorem IsNearest.unique (hm : IsNearest q m) (hn : IsNearest q n) : m = n := by
  have hle {k : ℤ} (hk : IsNearest q k) : |q - k| ≤ 1 / 2 := hk.elim le_of_lt fun h => h.1.le
  have hdist : ((|m - n| : ℤ) : ℚ) ≤ |q - m| + |q - n| := by
    rw [Int.cast_abs, Int.cast_sub, abs_sub_comm q m]
    exact abs_sub_le (m : ℚ) q n
  by_contra hne
  -- Two of them are at a distance of one, and each is at half of that from the number.
  have hone : (1 : ℚ) ≤ ((|m - n| : ℤ) : ℚ) := by
    exact_mod_cast Int.one_le_abs (sub_ne_zero.mpr hne)
  have hmid {k : ℤ} (hk : IsNearest q k) (h : 1 / 2 ≤ |q - k|) : Even k := by
    obtain hlt | ⟨-, heven⟩ := hk
    · exact absurd hlt h.not_gt
    · exact heven
  have heven : Even (m - n) :=
    (hmid hm (by linarith [hle hn])).sub (hmid hn (by linarith [hle hm]))
  have hlt : ((|m - n| : ℤ) : ℚ) < 2 := by linarith [hle hm, hle hn]
  have hlt : |m - n| < 2 := by exact_mod_cast hlt
  obtain ⟨k, hk⟩ := heven
  rw [Int.abs_eq_natAbs] at hlt
  omega

theorem IsNearest.neg (h : IsNearest q n) : IsNearest (-q) (-n) := by
  have hdist : |-q - ((-n : ℤ) : ℚ)| = |q - n| := by
    rw [← abs_neg (q - n)]
    congr 1
    push_cast
    ring
  rw [IsNearest, hdist, even_neg]
  exact h

/-- No integer is closer to a number than the nearest one. -/
theorem IsNearest.closest (h : IsNearest q n) (k : ℤ) : |n - q| ≤ |k - q| := by
  have hhalf : |n - q| ≤ 1 / 2 := by
    rw [abs_sub_comm]
    exact h.elim le_of_lt fun h => h.1.le
  obtain rfl | hne := eq_or_ne k n
  · exact le_rfl
  have hone : (1 : ℚ) ≤ |(k : ℚ) - n| := by
    exact_mod_cast Int.one_le_abs (sub_ne_zero.mpr hne)
  have htriangle : |(k : ℚ) - n| ≤ |k - q| + |n - q| := by
    rw [abs_sub_comm (n : ℚ)]
    exact abs_sub_le (k : ℚ) q n
  linarith

/-- A quotient of natural numbers is rounded by comparing twice the remainder with the divisor. -/
theorem isNearest_roundQuotient (n : ℕ) {d : ℕ} (hd : 0 < d) :
    IsNearest (n / d) (roundQuotient .toEven n d) := by
  have hd0 : (0 : ℚ) < d := by exact_mod_cast hd
  have hquot : (n : ℚ) / d = (n / d : ℕ) + (n % d : ℕ) / d := by
    rw [div_eq_iff hd0.ne', add_mul, div_mul_cancel₀ _ hd0.ne']
    exact_mod_cast (Nat.div_add_mod' n d).symm
  have hmod := Nat.mod_lt n hd
  simp only [roundQuotient]
  rw [hquot]
  generalize n / d = k
  generalize n % d = r at hmod ⊢
  have hr0 : (0 : ℚ) ≤ r / d := by positivity
  by_cases hlow : 2 * r < d
  · have hlt : (r : ℚ) / d < 1 / 2 := by
      rw [div_lt_div_iff₀ hd0 two_pos, mul_comm, one_mul]
      exact_mod_cast hlow
    rw [if_pos hlow]
    refine .inl ?_
    rw [Int.cast_natCast, add_sub_cancel_left, abs_of_nonneg hr0]
    exact hlt
  rw [if_neg hlow]
  by_cases hhigh : d < 2 * r
  · have hlt : 1 / 2 < (r : ℚ) / d := by
      rw [div_lt_div_iff₀ two_pos hd0, one_mul, mul_comm]
      exact_mod_cast hhigh
    have hone : (r : ℚ) / d < 1 := by
      rw [div_lt_one hd0]
      exact_mod_cast hmod
    rw [if_pos hhigh]
    refine .inl ?_
    push_cast
    rw [abs_lt]
    constructor <;> linarith
  · have hhalf : (r : ℚ) / d = 1 / 2 := by
      have heq : 2 * r = d := by omega
      rw [div_eq_div_iff hd0.ne' two_ne_zero, one_mul, mul_comm]
      exact_mod_cast heq
    have heven : Even ((k + k % 2 : ℕ) : ℤ) := by
      rw [Int.even_coe_nat, Nat.even_iff]
      omega
    rw [if_neg hhigh]
    refine .inr ⟨?_, heven⟩
    obtain hk | hk := Nat.mod_two_eq_zero_or_one k <;> rw [hk, hhalf] <;> push_cast
    · rw [abs_of_nonneg] <;> linarith
    · rw [abs_of_neg] <;> linarith

/-- With halves away from zero a quotient of natural numbers is rounded to the nearest integer, and a
half upward. -/
theorem round_div (n : ℕ) {d : ℕ} (hd : 0 < d) :
    round ((n : ℚ) / d) = roundQuotient .awayFromZero n d := by
  have hd0 : (0 : ℚ) < d := by exact_mod_cast hd
  have hsplit : (n : ℚ) = (n / d : ℕ) * d + (n % d : ℕ) := by
    exact_mod_cast (Nat.div_add_mod' n d).symm
  have hmod : ((n % d : ℕ) : ℚ) < d := by exact_mod_cast Nat.mod_lt n hd
  have hr0 : (0 : ℚ) ≤ (n % d : ℕ) := Nat.cast_nonneg _
  have hhalf : (n : ℚ) / d + 1 / 2 = (2 * n + d) / (2 * d) := by
    field_simp
  rw [round_eq, hhalf, Int.floor_eq_iff, le_div_iff₀ (by positivity), div_lt_iff₀ (by positivity)]
  simp only [roundQuotient]
  rw [hsplit]
  generalize n / d = k
  generalize n % d = r at hmod hr0 ⊢
  by_cases hlow : 2 * r < d
  · have hlow' : (2 * r : ℚ) < d := by exact_mod_cast hlow
    rw [if_pos hlow, Int.cast_natCast]
    constructor <;> linarith
  · have hhigh : (d : ℚ) ≤ 2 * r := by exact_mod_cast not_lt.mp hlow
    rw [if_neg hlow, ite_self]
    push_cast
    constructor <;> linarith

namespace Binary
variable (negative : Bool) (m : ℕ) (e : ℤ)

/-- Rounding a magnitude is rounding a quotient. -/
private theorem exists_nearest_eq : ∃ n d : ℕ, 0 < d ∧ (m : ℚ) * 2 ^ e = n / d ∧
    ∀ tie, nearest tie ⟨negative, m, e⟩ = roundQuotient tie n d := by
  by_cases he : 0 ≤ e
  · obtain ⟨k, rfl⟩ := Int.eq_ofNat_of_zero_le he
    refine ⟨m <<< k, 1, Nat.one_pos, by simp [Nat.shiftLeft_eq], fun tie => ?_⟩
    simp [nearest, roundQuotient, Nat.mod_one]
  · obtain ⟨k, rfl⟩ := Int.exists_eq_neg_ofNat (not_le.mp he).le
    refine ⟨m, 1 <<< k, Nat.one_shiftLeft k ▸ Nat.two_pow_pos k, ?_, fun tie => ?_⟩
    · simp [Nat.one_shiftLeft, div_eq_mul_inv]
    · simp only [nearest, if_neg he, neg_neg, Int.toNat_natCast]

theorem isNearest_nearest : IsNearest (m * 2 ^ e) (nearest .toEven ⟨negative, m, e⟩) := by
  obtain ⟨n, d, hd, hq, hn⟩ := exists_nearest_eq negative m e
  rw [hq, hn]
  exact isNearest_roundQuotient n hd

theorem round_eq_nearest : round (m * 2 ^ e : ℚ) = nearest .awayFromZero ⟨negative, m, e⟩ := by
  obtain ⟨n, d, hd, hq, hn⟩ := exists_nearest_eq negative m e
  rw [hq, hn]
  exact round_div n hd

end Binary

end Nearest

end Lindenmayer
