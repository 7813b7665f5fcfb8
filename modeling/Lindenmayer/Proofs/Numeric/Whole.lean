import Lindenmayer.Proofs.Numeric.Arithmetic

/-! Whole parts of doubles and what is left beside them: remainders, the place in a period, rounding
down, and integers as doubles. -/
namespace Lindenmayer
open Float.Model (UnpackedFloat)
open Float.Model.UnpackedFloat

variable {x y : Float} {p q : ℚ}

/-- The number of a numeral is its magnitude with the sign. -/
private theorem value_eq_magnitude (b : Binary) :
    b.value =
      if b.negative then -(b.significand * 2 ^ b.exponent : ℚ)
      else b.significand * 2 ^ b.exponent := by
  unfold Binary.value
  split <;> ring

section Remainders

/-- A numeral at a lower exponent. -/
private def lowered (b : Binary) (e : Int) : Binary :=
  ⟨b.negative, b.significand <<< (b.exponent - e).toNat, e⟩

private theorem value_lowered {b : Binary} {e : Int} (h : e ≤ b.exponent) :
    (lowered b e).value = b.value := by
  have hmagnitude : ((b.significand <<< (b.exponent - e).toNat : Nat) : ℚ) * 2 ^ e =
      b.significand * 2 ^ b.exponent := by
    rw [Nat.shiftLeft_eq, two_zpow_eq b.exponent h]
    push_cast
    ring
  rw [value_eq_magnitude, value_eq_magnitude b, lowered, hmagnitude]

/-- The remainder of two significands at one exponent. -/
private theorem exists_quotient (s t : Bool) (m : Nat) {n : Nat} (hn : 0 < n) (e : Int) :
    ∃ k : ℤ, Binary.value ⟨s, m, e⟩ = k * Binary.value ⟨t, n, e⟩ + Binary.value ⟨s, m % n, e⟩ ∧
      |Binary.value ⟨s, m % n, e⟩| < |Binary.value ⟨t, n, e⟩| ∧
      0 ≤ Binary.value ⟨s, m, e⟩ * Binary.value ⟨s, m % n, e⟩ := by
  have habs (s : Bool) (m : Nat) : |Binary.value ⟨s, m, e⟩| = m * 2 ^ e := by
    rw [value_eq_magnitude]
    cases s <;> simp
  refine ⟨if s = t then (m / n : Nat) else -(m / n : Nat), ?_, ?_, ?_⟩
  · have hsplit : (m : ℚ) = (m / n : Nat) * n + (m % n : Nat) := by
      exact_mod_cast (Nat.div_add_mod' m n).symm
    rw [value_eq_magnitude, value_eq_magnitude ⟨t, n, e⟩, value_eq_magnitude ⟨s, m % n, e⟩, hsplit]
    generalize m / n = k
    generalize m % n = r
    cases s <;> cases t <;> simp <;> ring
  · have hlt : ((m % n : Nat) : ℚ) < n := by exact_mod_cast Nat.mod_lt m hn
    rw [habs, habs]
    gcongr
  · rw [value_eq_magnitude, value_eq_magnitude ⟨s, m % n, e⟩]
    cases s <;> simp only [Bool.false_eq_true, if_true, if_false, neg_mul_neg] <;> positivity

/-- The remainder is exact. It has the sign of the dividend and is smaller than the divisor, and it
differs from the dividend by a multiple of the divisor. -/
theorem exists_remainder (hx : value? x = some p) (hy : value? y = some q) (hq : q ≠ 0) :
    ∃ (r : ℚ) (k : ℤ), value? (remainder x y) = some r ∧ p = k * q + r ∧ |r| < |q| ∧ 0 ≤ p * r := by
  obtain ⟨a, ha, rfl⟩ := Option.map_eq_some_iff.mp hx
  obtain ⟨b, hb, rfl⟩ := Option.map_eq_some_iff.mp hy
  obtain ⟨ham, hae, hae'⟩ := Binary.bounds_of_ofFloat? ha
  obtain ⟨hbm, hbe, hbe'⟩ := Binary.bounds_of_ofFloat? hb
  let e := min a.exponent b.exponent
  let m := a.significand <<< (a.exponent - e).toNat
  let n := b.significand <<< (b.exponent - e).toNat
  have hsig : b.significand ≠ 0 := by
    intro h
    simp [Binary.value, h] at hq
  have hn : 0 < n := by
    simp only [n, Nat.shiftLeft_eq]
    positivity
  -- One of the two significands is not shifted, and it bounds the remainder.
  have hsmall : m % n < 2 ^ 53 := by
    obtain h | h := min_choice a.exponent b.exponent
    · have hm : m = a.significand := by simp [m, e, h]
      exact (Nat.mod_le _ _).trans_lt (hm ▸ ham)
    · have hn' : n = b.significand := by simp [n, e, h]
      exact (Nat.mod_lt _ hn).trans (hn' ▸ hbm)
  have hdouble : IsDouble (Binary.value ⟨a.negative, m % n, e⟩) := by
    have hd := isDouble_of_exponent_le hsmall (e := e) (by omega) (by omega)
    rw [value_eq_magnitude]
    split
    · exact hd.neg
    · exact hd
  have hvalue : value? (remainder x y) = some (Binary.value ⟨a.negative, m % n, e⟩) := by
    simp only [remainder, ha, hb, if_neg hsig]
    exact Binary.value?_toFloat hdouble
  obtain ⟨k, hk⟩ := exists_quotient a.negative b.negative m hn e
  have hla : Binary.value ⟨a.negative, m, e⟩ = a.value := value_lowered (min_le_left _ _)
  have hlb : Binary.value ⟨b.negative, n, e⟩ = b.value := value_lowered (min_le_right _ _)
  rw [hla, hlb] at hk
  exact ⟨_, k, hvalue, hk⟩

/-- What is brought into one turn of a period is rounded once, where it was negative. -/
theorem rounds_wrap (hx : value? x = some p) (hy : value? y = some q) (hq : q ≠ 0) :
    Rounds (wrap x y) (Int.fract (p / |q|) * |q|) := by
  obtain ⟨r, k, hr, hk, hlt, -⟩ := exists_remainder hx hy hq
  have hpos : 0 < |q| := abs_pos.mpr hq
  obtain ⟨j, hj⟩ : ∃ j : ℤ, p = j * |q| + r := by
    obtain h | h := abs_choice q
    · exact ⟨k, by rw [h, hk]⟩
    · exact ⟨-k, by rw [h, hk]; push_cast; ring⟩
  have hfract : Int.fract (p / |q|) = Int.fract (r / |q|) := by
    rw [hj, add_div, mul_div_cancel_right₀ _ hpos.ne', Int.fract_intCast_add]
  obtain ⟨hlow, hhigh⟩ := abs_lt.mp hlt
  have hturn (z : ℤ) (h0 : 0 ≤ r - z * |q|) (h1 : r - z * |q| < |q|) :
      Int.fract (p / |q|) * |q| = r - z * |q| := by
    have hfloor : ⌊r / |q|⌋ = z := by
      rw [Int.floor_eq_iff, le_div_iff₀ hpos, div_lt_iff₀ hpos]
      constructor <;> linarith
    rw [hfract, Int.fract, hfloor, sub_mul, div_mul_cancel₀ _ hpos.ne']
  have hneg : remainder x y < 0 ↔ r < 0 := value_lt_iff hr value?_zero
  unfold wrap
  by_cases h : r < 0
  · rw [if_pos (hneg.mpr h), hturn (-1) (by push_cast; linarith) (by push_cast; linarith),
      Int.cast_neg, Int.cast_one, neg_one_mul, sub_neg_eq_add]
    exact rounds_add hr (value?_abs hy)
  · rw [if_neg (mt hneg.mp h), hturn 0 (by simpa using h) (by simpa using hhigh), Int.cast_zero,
      zero_mul, sub_zero]
    exact .of_value? hr

/-- An integer wrapped into an integer period is its remainder that is not negative. -/
theorem value?_wrap {m n : ℤ} (hx : value? x = some (m : ℚ)) (hy : value? y = some (n : ℚ))
    (hn : n ≠ 0) (hn' : |n| ≤ 2 ^ 53) : value? (wrap x y) = some ((m % n : ℤ) : ℚ) := by
  have hpos : (0 : ℚ) < |(n : ℚ)| := by simpa using hn
  have hlow : 0 ≤ m % n := Int.emod_nonneg m hn
  have hhigh : m % n < |n| := Int.emod_lt_abs m hn
  have hfract : Int.fract ((m : ℚ) / |(n : ℚ)|) = (m % n : ℤ) / |(n : ℚ)| := by
    rw [Int.fract_eq_iff, div_lt_one hpos, ← sub_div]
    refine ⟨div_nonneg (by exact_mod_cast hlow) hpos.le, by exact_mod_cast hhigh, m / |n|, ?_⟩
    rw [div_eq_iff hpos.ne', ← Int.emod_abs m n]
    have := Int.emod_add_mul_ediv m |n|
    have : m - m % |n| = m / |n| * |n| := by linarith
    exact_mod_cast this
  have hround := rounds_wrap hx hy (by exact_mod_cast hn)
  rw [hfract, div_mul_cancel₀ _ hpos.ne'] at hround
  refine hround.value?_eq (isDouble_int ?_)
  rw [abs_of_nonneg hlow]
  omega

end Remainders

section Cuts

private theorem zpow_of_neg {e : Int} (h : e < 0) : (2 : ℚ) ^ e = (2 ^ (-e).toNat)⁻¹ := by
  rw [← zpow_natCast, Int.toNat_of_nonneg (by omega), zpow_neg, inv_inv]

private theorem whole_of_nonneg {b : Binary} (he : 0 ≤ b.exponent) :
    (b.whole : ℚ) = b.significand * 2 ^ b.exponent := by
  obtain ⟨k, hk⟩ := Int.eq_ofNat_of_zero_le he
  rw [Binary.whole, if_pos he, Nat.shiftLeft_eq, hk, Int.toNat_natCast, zpow_natCast]
  push_cast
  rfl

/-- The whole part of a numeral is that of its magnitude. -/
private theorem whole_eq_floor (b : Binary) :
    (b.whole : ℤ) = ⌊(b.significand * 2 ^ b.exponent : ℚ)⌋ := by
  by_cases he : 0 ≤ b.exponent
  · rw [← whole_of_nonneg he, Int.floor_natCast]
  · have hv : (b.significand * 2 ^ b.exponent : ℚ) =
        (b.significand : ℚ) / (2 ^ (-b.exponent).toNat : ℕ) := by
      rw [zpow_of_neg (by omega), div_eq_mul_inv]
      push_cast
      rfl
    rw [Binary.whole, if_neg he, hv, Nat.shiftRight_eq_div_pow, Rat.floor_natCast_div_natCast,
      Int.natCast_ediv]

/-- Nothing is cut off when the whole part is all of the magnitude. -/
private theorem whole_shiftLeft_eq_iff {b : Binary} (he : ¬ 0 ≤ b.exponent) :
    b.whole <<< (-b.exponent).toNat = b.significand ↔
      (b.whole : ℚ) = b.significand * 2 ^ b.exponent := by
  rw [zpow_of_neg (by omega), eq_mul_inv_iff_mul_eq₀ (by positivity), Nat.shiftLeft_eq]
  exact_mod_cast Iff.rfl

private theorem value?_toFloat_integer (negative : Bool) {m : Nat} (hm : m ≤ 2 ^ 53) :
    value? (Binary.toFloat ⟨negative, m, 0⟩) = some (if negative then -(m : ℚ) else m) := by
  have hv : Binary.value ⟨negative, m, 0⟩ = if negative then -(m : ℚ) else m := by
    rw [value_eq_magnitude]
    simp
  rw [← hv]
  refine Binary.value?_toFloat ?_
  rw [hv]
  split
  · exact (isDouble_natCast hm).neg
  · exact isDouble_natCast hm

theorem value?_roundDown (h : value? x = some q) : value? (roundDown x) = some (⌊q⌋ : ℚ) := by
  obtain ⟨b, hb, rfl⟩ := Option.map_eq_some_iff.mp h
  simp only [roundDown, hb]
  by_cases he : 0 ≤ b.exponent
  · rw [if_pos he, h, value_eq_magnitude, ← whole_of_nonneg he]
    split
    · rw [Int.floor_neg, Int.ceil_natCast, Int.cast_neg, Int.cast_natCast]
    · rw [Int.floor_natCast, Int.cast_natCast]
  · have hcut := whole_shiftLeft_eq_iff he
    have hfloor := whole_eq_floor b
    have hsmall : b.whole < 2 ^ 53 := by
      rw [Binary.whole, if_neg he, Nat.shiftRight_eq_div_pow]
      exact (Nat.div_le_self _ _).trans_lt (Binary.bounds_of_ofFloat? hb).1
    rw [if_neg he, value_eq_magnitude]
    generalize (b.significand * 2 ^ b.exponent : ℚ) = v at hcut hfloor
    have hlow : (b.whole : ℚ) ≤ v := by
      have := Int.floor_le v
      rwa [← hfloor, Int.cast_natCast] at this
    have hhigh : v < b.whole + 1 := by
      have := Int.lt_floor_add_one v
      rwa [← hfloor, Int.cast_natCast] at this
    cases b.negative with
    | false =>
      simp only [Bool.false_eq_true, false_and, if_false]
      rw [value?_toFloat_integer false hsmall.le, ← hfloor]
      simp
    | true =>
      rw [if_pos rfl, Int.floor_neg]
      by_cases hv : (b.whole : ℚ) = v
      · rw [if_neg (fun h => h.2 (hcut.mpr hv)), value?_toFloat_integer true hsmall.le, ← hv, Int.ceil_natCast]
        simp
      · have hceil : ⌈v⌉ = b.whole + 1 := by
          rw [Int.ceil_eq_iff]
          push_cast
          exact ⟨by linarith [lt_of_le_of_ne hlow hv], hhigh.le⟩
        rw [if_pos ⟨rfl, mt hcut.mp hv⟩, value?_toFloat_integer true hsmall, hceil]
        simp

/-- An integer is its own integer part. -/
theorem integerPart_eq {n : ℤ} (h : value? x = some (n : ℚ)) : integerPart x = n := by
  obtain ⟨b, hb, hn⟩ := Option.map_eq_some_iff.mp h
  have hfloor := whole_eq_floor b
  simp only [integerPart, hb]
  rw [value_eq_magnitude] at hn
  split at hn
  · rw [← neg_eq_iff_eq_neg.mpr hn.symm, ← Int.cast_neg, Int.floor_intCast] at hfloor
    rw [if_pos ‹_›, hfloor, neg_neg]
  · rw [hn, Int.floor_intCast] at hfloor
    rw [if_neg ‹_›, hfloor]

end Cuts

section Integers

/-- The integers that a word of 53 bits holds are converted from it. -/
private theorem rounds_ofNat_of_lt {n : Nat} (hn : n < 2 ^ 53) : Rounds (Float.ofNat n) n := by
  have hword : value? n.toUInt64.toFloat = some (n : ℚ) := by
    have hround : Rounds n.toUInt64.toFloat ((n.toUInt64.toNat : ℤ) * 2 ^ (0 : ℤ)) :=
      rounds_normalize _ 0 .positive
    have hsize : n.toUInt64.toNat = n := UInt64.toNat_ofNat_of_lt' (hn.trans (by decide))
    rw [hsize, zpow_zero, mul_one, Int.cast_natCast] at hround
    exact hround.value?_eq (isDouble_natCast hn.le)
  have hof : Float.ofNat n = n.toUInt64.toFloat * Float.ofBits 0x3FF0000000000000 := by
    have hfast : n < 2 ^ 53 ∧ 0 ≤ 22 := ⟨hn, by decide⟩
    simp only [Float.ofNat, OfScientific.ofScientific, Float.ofScientific, dif_pos hfast]
    rfl
  have hone : (1 : Float) = Float.ofBits 0x3FF0000000000000 := eq_of_unpack_eq rfl
  have hmul := rounds_mul hword value?_one
  rwa [mul_one, hone, ← hof] at hmul

private theorem rounds_ofNat_of_le {n : Nat} (hn : 2 ^ 53 ≤ n) : Rounds (Float.ofNat n) n := by
  have hslow : ¬ (n < 2 ^ 53 ∧ 0 ≤ 22) := fun h => hn.not_gt h.1
  have hpos : 0 < n <<< 53 := by
    rw [Nat.shiftLeft_eq]
    exact Nat.mul_pos (by omega) (Nat.two_pow_pos 53)
  have hof : Float.ofNat n = .ofModel (.pack (mul .binary64 (.finite .positive (n <<< 53) (-53) hpos)
      (.finite .positive 1 0 Nat.one_pos))) := by
    simp only [Float.ofNat, OfScientific.ofScientific, Float.ofScientific, dif_neg hslow,
      Float.Model.ofScientific, UnpackedFloat.ofScientific]
    rw [dif_neg (by omega), if_neg (by simp), if_neg (by simp), if_pos (by simp)]
    rfl
  have hfull : 2 ^ 52 ≤ n <<< 53 * 1 ∨ (-53 : ℤ) + 0 ≤ -1074 := by
    rw [Nat.shiftLeft_eq]
    omega
  have hround := (isRounded_mul .positive .positive hpos Nat.one_pos hfull).rounds
  have hvalue : (((Sign.positive * Sign.positive).apply 1 : ℤ) : ℚ) *
      ((n <<< 53 : Nat) * 2 ^ (-53 : ℤ) * ((1 : Nat) * 2 ^ (0 : ℤ))) = n := by
    have hsign : (Sign.positive * Sign.positive).apply 1 = 1 := rfl
    rw [hsign, Nat.shiftLeft_eq]
    push_cast
    norm_num [mul_assoc]
  rwa [hvalue, ← hof] at hround

theorem rounds_ofNat (n : Nat) : Rounds (Float.ofNat n) n :=
  (Nat.lt_or_ge n (2 ^ 53)).elim rounds_ofNat_of_lt rounds_ofNat_of_le

theorem value?_literal (n : Nat) [n.AtLeastTwo] (h : n ≤ 2 ^ 53) :
    value? (OfNat.ofNat n) = some (OfNat.ofNat n : ℚ) :=
  (rounds_ofNat n).value?_eq (isDouble_natCast h)

/-- A double is a multiple of the place below its leading 53 bits. -/
theorem IsDouble.exists_multiple {t : ℤ} (h : IsDouble q) (hq : 2 ^ 52 * 2 ^ t ≤ |q|) :
    ∃ n : ℤ, q = n * 2 ^ t := by
  obtain rfl | ⟨s, m, e, hc, -, rfl⟩ := isDouble_iff.mp h
  · exact ⟨0, by simp⟩
  have habs : |(s.apply m * 2 ^ e : ℚ)| = m * 2 ^ e := by
    cases s <;> simp [Sign.apply]
  obtain ⟨k, hk⟩ | ⟨-, hlt⟩ := hc.exists_multiple t
  · exact ⟨s.apply k, by rw [← apply_one_mul, ← apply_one_mul, mul_assoc, hk, mul_assoc]⟩
  · linarith

/-- An integer is rounded to an integer. -/
theorem Rounds.exists_int {n : ℤ} (h : Rounds x n) (hn : |n| ≤ 2 ^ 128) :
    ∃ m : ℤ, value? x = some (m : ℚ) := by
  by_cases hsmall : |n| ≤ 2 ^ 53
  · exact ⟨n, h.value?_eq (isDouble_int hsmall)⟩
  have htop : IsDouble (2 ^ 128) := isDouble_two_pow (by decide)
  have h53 : IsDouble (2 ^ 53) := isDouble_two_pow (by decide)
  have hle : |(n : ℚ)| ≤ 2 ^ 128 := by exact_mod_cast hn
  have hlarge : (2 : ℚ) ^ 53 < |(n : ℚ)| := by exact_mod_cast not_le.mp hsmall
  obtain ⟨v, hv, hsize⟩ : ∃ v, value? x = some v ∧ 2 ^ 53 ≤ |v| := by
    obtain hneg | hpos := le_total (n : ℚ) 0
    · rw [abs_of_nonpos hneg] at hle hlarge
      obtain ⟨v, hv, -, hhigh⟩ :=
        h.exists_value htop.neg (neg_le.mp hle) h53.neg (le_neg.mp hlarge.le)
      exact ⟨v, hv, (le_neg.mp hhigh).trans (neg_le_abs v)⟩
    · rw [abs_of_nonneg hpos] at hle hlarge
      obtain ⟨v, hv, hlow, -⟩ := h.exists_value h53 hlarge.le htop hle
      exact ⟨v, hv, hlow.trans (le_abs_self v)⟩
  obtain ⟨m, rfl⟩ := IsDouble.exists_multiple (t := 0) ⟨x, hv⟩ (by norm_num at hsize ⊢; linarith)
  exact ⟨m, by simpa using hv⟩

section Bounds
variable {k m n : ℤ}

theorem Rounds.le_int (h : Rounds x n) (hk : value? x = some (k : ℚ)) (hm : IsDouble m) (hmn : m ≤ n) :
    m ≤ k := by
  exact_mod_cast h.le_value hk hm (by exact_mod_cast hmn)

theorem Rounds.int_le (h : Rounds x n) (hk : value? x = some (k : ℚ)) (hm : IsDouble m) (hnm : n ≤ m) :
    k ≤ m := by
  exact_mod_cast h.value_le hk hm (by exact_mod_cast hnm)

theorem Rounds.int_eq (h : Rounds x n) (hk : value? x = some (k : ℚ)) (hn : |n| ≤ 2 ^ 53) : k = n := by
  exact_mod_cast Option.some.inj (hk.symm.trans (h.value?_eq (isDouble_int hn)))

end Bounds

/-- A difference of integers is rounded to an integer. -/
theorem exists_sub_int {m n : ℤ} (hx : value? x = some (m : ℚ)) (hy : value? y = some (n : ℚ))
    (h : |m - n| ≤ 2 ^ 128) :
    ∃ k : ℤ, value? (x - y) = some (k : ℚ) ∧ Rounds (x - y) ((m - n : ℤ) : ℚ) := by
  have hround := rounds_sub hx hy
  rw [← Int.cast_sub] at hround
  obtain ⟨k, hk⟩ := hround.exists_int h
  exact ⟨k, hk, hround⟩

end Integers
end Lindenmayer
