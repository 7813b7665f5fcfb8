import Lindenmayer.Proofs.Numeric.Products

/-! Exact arithmetic: an operation on doubles does not round when some double stands for its exact
result. -/
namespace Lindenmayer
open Float.Model.UnpackedFloat (Sign)

/-- A number written with two exponents, without fractions. -/
theorem mul_two_zpow_eq_iff {m n : Nat} {e f : Int} :
    (m : ℚ) * 2 ^ e = n * 2 ^ f ↔ m * 2 ^ (e - f).toNat = n * 2 ^ (f - e).toNat := by
  have hne : (2 : ℚ) ^ min e f ≠ 0 := by positivity
  have he : (e - min e f).toNat = (e - f).toNat := by omega
  have hf : (f - min e f).toNat = (f - e).toNat := by omega
  rw [two_zpow_eq e (min_le_left e f), two_zpow_eq f (min_le_right e f), he, hf, ← mul_assoc,
    ← mul_assoc, mul_left_inj' hne]
  exact_mod_cast Iff.rfl

/-- A double has one mantissa and one exponent for the magnitude of its number. -/
theorem IsDouble.exists_canonical {s : Sign} {m : Nat} {e : Int} (hm : 0 < m)
    (h : IsDouble (s.apply m * 2 ^ e)) :
    ∃ n f, Canonical n f ∧ f ≤ 971 ∧ (m : ℚ) * 2 ^ e = n * 2 ^ f := by
  rw [← apply_one_mul, mul_assoc, isDouble_apply_one] at h
  exact h.exists_canonical_of_pos (by positivity)

section Integers
variable {x y : Float} {m n : ℤ}

theorem value?_add_int (hx : value? x = some (m : ℚ)) (hy : value? y = some (n : ℚ))
    (h : |m + n| ≤ 2 ^ 53) : value? (x + y) = some ((m + n : ℤ) : ℚ) := by
  have hd := isDouble_int h
  rw [Int.cast_add] at hd ⊢
  exact value?_add hx hy hd

theorem value?_sub_int (hx : value? x = some (m : ℚ)) (hy : value? y = some (n : ℚ))
    (h : |m - n| ≤ 2 ^ 53) : value? (x - y) = some ((m - n : ℤ) : ℚ) := by
  have hd := isDouble_int h
  rw [Int.cast_sub] at hd ⊢
  exact value?_sub hx hy hd

theorem value?_mul_int (hx : value? x = some (m : ℚ)) (hy : value? y = some (n : ℚ))
    (h : |m * n| ≤ 2 ^ 53) : value? (x * y) = some ((m * n : ℤ) : ℚ) := by
  have hd := isDouble_int h
  rw [Int.cast_mul] at hd ⊢
  exact value?_mul hx hy hd

end Integers

end Lindenmayer
