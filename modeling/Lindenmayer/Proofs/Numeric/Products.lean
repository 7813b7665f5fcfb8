import Lindenmayer.Proofs.Numeric.Sums

/-! Products and quotients of doubles. They are rounded once, and not at all when some double stands
for the exact result. -/
namespace Lindenmayer
open Float.Model (UnpackedFloat)
open Float.Model.UnpackedFloat

private theorem mul_apply_one (s t : Sign) :
    (((s * t).apply 1 : ℤ) : ℚ) = s.apply 1 * t.apply 1 := by
  have h : (s * t).apply 1 = s.apply 1 * t.apply 1 := by cases s <;> cases t <;> rfl
  exact_mod_cast h

private theorem div_apply_one (s t : Sign) :
    (((s / t).apply 1 : ℤ) : ℚ) = s.apply 1 / t.apply 1 := by
  have h : (s / t).apply 1 = s.apply 1 * t.apply 1 := by cases s <;> cases t <;> rfl
  rw [h, Int.cast_mul, div_eq_mul_inv]
  cases t <;> simp [Sign.apply]

variable {x y : Float} {p q : ℚ}

theorem rounds_mul (hx : value? x = some p) (hy : value? y = some q) : Rounds (x * y) (p * q) := by
  have hmul : x * y =
      .ofModel (.pack (UnpackedFloat.mul .binary64 x.toModel.unpack y.toModel.unpack)) := rfl
  rw [hmul]
  obtain ⟨s, hu, rfl⟩ | ⟨s, m, e, hm, hu, rfl⟩ := unpack_of_value? hx <;>
    obtain ⟨t, hv, rfl⟩ | ⟨t, n, f, hn, hv, rfl⟩ := unpack_of_value? hy
  · rw [hu, hv, zero_mul]
    exact .of_value? (value?_pack_zero _)
  · rw [hu, hv, zero_mul]
    exact .of_value? (value?_pack_zero _)
  · rw [hu, hv, mul_zero]
    exact .of_value? (value?_pack_zero _)
  · have hc := (canonical_of_unpack hu).1
    have hd := (canonical_of_unpack hv).1
    -- The product has 53 bits or more, unless both factors have the least exponent.
    have hfull : 2 ^ 52 ≤ m * n ∨ e + f ≤ -1074 := by
      obtain hfull | he := hc.full
      · exact .inl (hfull.trans (Nat.le_mul_of_pos_right m hn))
      obtain hfull | hf := hd.full
      · exact .inl (hfull.trans (Nat.le_mul_of_pos_left n hm))
      · exact .inr (by omega)
    have hvalue : (s.apply m * 2 ^ e * (t.apply n * 2 ^ f) : ℚ) =
        (s * t).apply 1 * (m * 2 ^ e * (n * 2 ^ f)) := by
      rw [mul_apply_one, ← apply_one_mul s m, ← apply_one_mul t n]
      ring
    rw [hu, hv, hvalue]
    exact (isRounded_mul s t hm hn hfull).rounds

theorem rounds_div (hx : value? x = some p) (hy : value? y = some q) (hq : q ≠ 0) :
    Rounds (x / y) (p / q) := by
  have hdiv : x / y =
      .ofModel (.pack (UnpackedFloat.div .binary64 x.toModel.unpack y.toModel.unpack)) := rfl
  rw [hdiv]
  obtain ⟨t, -, rfl⟩ | ⟨t, n, f, hn, hv, rfl⟩ := unpack_of_value? hy
  · contradiction
  obtain ⟨s, hu, rfl⟩ | ⟨s, m, e, hm, hu, rfl⟩ := unpack_of_value? hx
  · rw [hu, hv, zero_div]
    exact .of_value? (value?_pack_zero _)
  have hvalue : (s.apply m * 2 ^ e / (t.apply n * 2 ^ f) : ℚ) =
      (s / t).apply 1 * (m * 2 ^ e / (n * 2 ^ f)) := by
    rw [div_apply_one, ← apply_one_mul s m, ← apply_one_mul t n]
    ring
  rw [hu, hv, hvalue]
  exact (isRounded_div s t e f hm hn).rounds

theorem value?_mul (hx : value? x = some p) (hy : value? y = some q) (h : IsDouble (p * q)) :
    value? (x * y) = some (p * q) :=
  (rounds_mul hx hy).value?_eq h

end Lindenmayer
