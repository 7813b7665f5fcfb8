import Lindenmayer.Proofs.Numeric.Nearest
import Lindenmayer.Proofs.Numeric.Packing

/-! Rounding: a number as doubles hold it, and what sums, products and quotients are rounded to. No double
is closer to a number than what it is rounded to. -/
namespace Lindenmayer
open Float.Model (UnpackedFloat Format totalExponent)
open Float.Model.UnpackedFloat

/-- The exponent that a number is rounded to. -/
private def target (m : Nat) (e : Int) : Int := max (m.log2 + e - 52) (-1074)

private theorem targetExponent_eq (m : Nat) (e : Int) :
    Format.binary64.targetExponent (totalExponent m e) = target m e := by
  simp only [Format.targetExponent, totalExponent, Format.mantissaBits, Format.minExponent, target]
  omega

private theorem Canonical.target_eq {m : Nat} {e : Int} (h : Canonical m e) : target m e = e := by
  have hm : m ≠ 0 := Nat.ne_of_gt h.pos
  have hl : m.log2 < 53 := (Nat.log2_lt hm).mpr h.lt
  have he := h.exponent
  unfold target
  rcases h.full with hf | hf
  · have := (Nat.le_log2 hm).mpr hf
    omega
  · omega

theorem Canonical.exponent_eq {m : Nat} {e : Int} (h : Canonical m e) :
    max (m.log2 + e - 52) (-1074) = e := h.target_eq

private theorem target_le {m : Nat} {e : Int} : -1074 ≤ target m e := Int.le_max_right _ _

/-- A number with 53 bits or the least exponent, or beyond these, is not rounded to a lower exponent. -/
private theorem le_target {m : Nat} {e : Int} (h : 2 ^ 52 ≤ m ∨ e ≤ -1074) : e ≤ target m e := by
  unfold target
  obtain hm | he := h
  · have := (Nat.le_log2 (by omega)).mpr hm
    omega
  · omega

/-- Cutting a number down to its exponent leaves 53 bits, and fewer only with the least exponent. -/
private theorem bits_div {m : Nat} {e : Int} (ht : e ≤ target m e) :
    m / 2 ^ (target m e - e).toNat < 2 ^ 53 ∧
      (2 ^ 52 ≤ m / 2 ^ (target m e - e).toNat ∨ target m e = -1074) := by
  have hhigh := Nat.lt_log2_self (n := m)
  refine ⟨?_, ?_⟩
  · rw [Nat.div_lt_iff_lt_mul (Nat.two_pow_pos _), ← Nat.pow_add]
    refine Nat.lt_of_lt_of_le hhigh (Nat.pow_le_pow_right (by decide) ?_)
    unfold target at ht ⊢
    omega
  · by_cases hlow : target m e = -1074
    · exact .inr hlow
    · have hl : 52 + (target m e - e).toNat = m.log2 := by
        unfold target at ht hlow ⊢
        omega
      have hm : m ≠ 0 := by
        rintro rfl
        rw [Nat.log2_zero] at hl
        omega
      refine .inl ?_
      rw [Nat.le_div_iff_mul_le (Nat.two_pow_pos _), ← Nat.pow_add, hl]
      exact Nat.log2_self_le hm

section Mantissas
variable {em : ExtendedMantissa} {q : ℚ}

/-- The number that a mantissa stands for with its two further bits: the mantissa itself, a half more,
or what is strictly on one side of that half. -/
private def Stands (em : ExtendedMantissa) (q : ℚ) : Prop :=
  match em.roundBit, em.stickyBit with
  | false, false => q = em.mantissa
  | false, true => em.mantissa < q ∧ q < em.mantissa + 1 / 2
  | true, false => q = em.mantissa + 1 / 2
  | true, true => em.mantissa + 1 / 2 < q ∧ q < em.mantissa + 1

private theorem stands_exact (m : Nat) : Stands (.ofMantissaAndAccuracy m .exact) m := rfl

private theorem Stands.mantissa_le (h : Stands em q) : em.mantissa ≤ q := by
  obtain ⟨m, _ | _, _ | _⟩ := em <;> simp only [Stands] at h ⊢
  · exact h.ge
  · exact h.1.le
  · linarith
  · linarith [h.1]

/-- A mantissa is rounded to the integer nearest to the number that it stands for. -/
private theorem Stands.isNearest (h : Stands em q) : IsNearest q em.roundedMantissa := by
  obtain ⟨m, _ | _, _ | _⟩ := em <;> simp only [Stands] at h
  · refine .inl ?_
    change |q - m| < 1 / 2
    rw [h, sub_self, abs_zero]
    norm_num
  · refine .inl ?_
    change |q - m| < 1 / 2
    rw [abs_lt]
    constructor <;> linarith
  · have heven : Even ((m + m % 2 : ℕ) : ℤ) := by
      rw [Int.even_coe_nat, Nat.even_iff]
      omega
    refine .inr ⟨?_, heven⟩
    change |q - ((m + m % 2 : ℕ) : ℤ)| = 1 / 2
    rw [h]
    obtain hm | hm := Nat.mod_two_eq_zero_or_one m <;> rw [hm] <;> push_cast
    · rw [abs_of_nonneg] <;> linarith
    · rw [abs_of_neg] <;> linarith
  · refine .inl ?_
    change |q - ((m + 1 : ℕ) : ℤ)| < 1 / 2
    push_cast
    rw [abs_lt]
    constructor <;> linarith

private theorem Stands.shiftRightOne (h : Stands em q) : Stands em.shiftRightOne (q / 2) := by
  obtain ⟨m, r, s⟩ := em
  obtain ⟨k, rfl | rfl⟩ : ∃ k, m = 2 * k ∨ m = 2 * k + 1 := ⟨m / 2, by omega⟩
  · have hshift : ExtendedMantissa.shiftRightOne ⟨2 * k, r, s⟩ = ⟨k, false, r || s⟩ := by
      simp [ExtendedMantissa.shiftRightOne]
    rw [hshift]
    cases r <;> cases s <;> simp only [Stands, Bool.or_false, Bool.or_true] at h ⊢ <;>
      push_cast at h <;> grind
  · have hshift : ExtendedMantissa.shiftRightOne ⟨2 * k + 1, r, s⟩ = ⟨k, true, r || s⟩ := by
      simp [ExtendedMantissa.shiftRightOne]
      omega
    rw [hshift]
    cases r <;> cases s <;> simp only [Stands, Bool.or_false, Bool.or_true] at h ⊢ <;>
      push_cast at h <;> grind

private theorem Stands.shiftRight (h : Stands em q) (k : Nat) : Stands (em >>> k) (q / 2 ^ k) := by
  change Stands (Nat.repeat ExtendedMantissa.shiftRightOne k em) _
  induction k with
  | zero => simpa [Nat.repeat] using h
  | succ k ih =>
    rw [Nat.repeat, pow_succ, ← div_div]
    exact ih.shiftRightOne

/-- A quotient of natural numbers cut to an integer, with what its remainder tells. -/
private theorem stands_fraction (m : Nat) {n : Nat} (hn : 0 < n) :
    Stands (.ofMantissaAndAccuracy (m / n) (accuracyOfFraction (m % n) n)) (m / n) := by
  have hn0 : (0 : ℚ) < n := by exact_mod_cast hn
  have hquot : (m : ℚ) / n = (m / n : ℕ) + (m % n : ℕ) / n := by
    rw [div_eq_iff hn0.ne', add_mul, div_mul_cancel₀ _ hn0.ne']
    exact_mod_cast (Nat.div_add_mod' m n).symm
  have hmod := Nat.mod_lt m hn
  rw [hquot]
  generalize m / n = k
  generalize m % n = r at hmod ⊢
  unfold accuracyOfFraction
  obtain rfl | hr := Nat.eq_zero_or_pos r
  · rw [if_pos rfl, Nat.cast_zero, zero_div, add_zero]
    exact stands_exact k
  have hpos : (0 : ℚ) < r / n := by positivity
  have hone : (r : ℚ) / n < 1 := by
    rw [div_lt_one hn0]
    exact_mod_cast hmod
  rw [if_neg hr.ne']
  obtain hlow | hmid | hhigh := lt_trichotomy (2 * r) n
  · rw [Nat.compare_eq_lt.mpr hlow]
    refine ⟨lt_add_of_pos_right _ hpos, add_lt_add_right ?_ _⟩
    rw [div_lt_div_iff₀ hn0 two_pos, mul_comm, one_mul]
    exact_mod_cast hlow
  · rw [Nat.compare_eq_eq.mpr hmid]
    refine congrArg ((k : ℚ) + ·) ?_
    rw [div_eq_div_iff hn0.ne' two_ne_zero, one_mul, mul_comm]
    exact_mod_cast hmid
  · rw [Nat.compare_eq_gt.mpr hhigh]
    refine ⟨add_lt_add_right ?_ _, add_lt_add_right hone _⟩
    rw [div_lt_div_iff₀ two_pos hn0, one_mul, mul_comm]
    exact_mod_cast hhigh

end Mantissas

/-- No number that doubles hold, whatever its exponent, is closer to a positive number, nor is zero. -/
structure Closest (r q : ℚ) : Prop where
  zero : |q - r| ≤ r
  canonical : ∀ {m e}, Canonical m e → |q - r| ≤ |m * 2 ^ e - r|

/-- What a positive number is rounded to, with a sign: zero, or a number as doubles hold it, whatever
its exponent. -/
def IsRounded (s : Sign) (r : ℚ) (u : UnpackedFloat) : Prop :=
  ∃ n f, (n = 0 ∧ u = .zero s ∨ ∃ hc : Canonical n f, u = .finite s n f hc.pos) ∧
    Closest r (n * 2 ^ f)

section Shifts

private theorem mantissa_shiftRight (em : ExtendedMantissa) (k : Nat) :
    (em >>> k).mantissa = em.mantissa / 2 ^ k := by
  change (Nat.repeat ExtendedMantissa.shiftRightOne k em).mantissa = _
  induction k with
  | zero => simp [Nat.repeat]
  | succ k ih =>
    simp only [Nat.repeat, ExtendedMantissa.shiftRightOne]
    rw [ih, Nat.div_div_eq_div_mul, Nat.pow_succ]

private theorem shiftToTargetExponent_eq (m : Nat) (e : Int) (a : Accuracy) :
    shiftToTargetExponent .binary64 m e a =
      (ExtendedMantissa.ofMantissaAndAccuracy m a >>> (target m e - e).toNat,
        e + (target m e - e).toNat) := by
  simp only [shiftToTargetExponent, shiftToExponent, targetExponent_eq]

private theorem mantissa_ofMantissaAndAccuracy (m : Nat) (a : Accuracy) :
    (ExtendedMantissa.ofMantissaAndAccuracy m a).mantissa = m := by
  obtain _ | _ | _ | _ := a <;> rfl

/-- Rounding a mantissa leaves it or makes it larger by one. -/
private theorem roundedMantissa_eq (em : ExtendedMantissa) :
    em.roundedMantissa = em.mantissa ∨ em.roundedMantissa = em.mantissa + 1 := by
  rcases em with ⟨m, _ | _, _ | _⟩
  · exact .inl rfl
  · exact .inl rfl
  · change m + m % 2 = m ∨ m + m % 2 = m + 1
    omega
  · exact .inr rfl

/-- The second half of rounding: a rounded mantissa is cut down once more. -/
private def settle (s : Sign) (m : Nat) (e : Int) : UnpackedFloat :=
  let shifted := shiftToTargetExponent .binary64 m e .exact
  if h : shifted.1.mantissa = 0 then .zero s
  else .finite s shifted.1.mantissa shifted.2 (Nat.pos_of_ne_zero h)

private theorem settle_eq (s : Sign) {m n : Nat} {e f : Int} (hn : 0 < n)
    (hm : m / 2 ^ (target m e - e).toNat = n) (he : e + (target m e - e).toNat = f) :
    settle s m e = .finite s n f hn := by
  simp only [settle, shiftToTargetExponent_eq, mantissa_shiftRight, mantissa_ofMantissaAndAccuracy,
    hm, he, hn.ne', dite_false]

/-- A rounded mantissa of up to 53 bits is settled without loss: if it is one bit too long, nothing but
a zero is cut off. -/
private theorem exists_settle (s : Sign) {m : Nat} {e : Int} (hm : m ≤ 2 ^ 53) (he : -1074 ≤ e)
    (hfull : 2 ^ 52 ≤ m ∨ e = -1074) :
    ∃ n f, (n = 0 ∧ settle s m e = .zero s ∨ ∃ hc : Canonical n f, settle s m e = .finite s n f hc.pos) ∧
      (n : ℚ) * 2 ^ f = m * 2 ^ e := by
  obtain rfl | hpos := Nat.eq_zero_or_pos m
  · refine ⟨0, e, .inl ⟨rfl, ?_⟩, rfl⟩
    simp [settle, shiftToTargetExponent_eq, mantissa_shiftRight, mantissa_ofMantissaAndAccuracy]
  obtain hlt | rfl := hm.lt_or_eq
  · have hc : Canonical m e := ⟨hpos, hlt, he, hfull⟩
    exact ⟨m, e, .inr ⟨hc, settle_eq s hpos (by simp [hc.target_eq]) (by simp [hc.target_eq])⟩, rfl⟩
  · have hc : Canonical (2 ^ 52) (e + 1) := ⟨by decide, by decide, by omega, .inl le_rfl⟩
    have htarget : target (2 ^ 53) e = e + 1 := by
      have hl : (2 ^ 53 : Nat).log2 = 53 := Nat.log2_two_pow
      unfold target
      omega
    have hone : (e + 1 - e).toNat = 1 := by omega
    refine ⟨2 ^ 52, e + 1, .inr ⟨hc, settle_eq s hc.pos ?_ ?_⟩, ?_⟩
    · rw [htarget, hone]
      decide
    · rw [htarget, hone]
      rfl
    · rw [zpow_add_one₀ two_ne_zero]
      push_cast
      ring

end Shifts

theorem two_zpow_eq {low : Int} (e : Int) (h : low ≤ e) :
    (2 : ℚ) ^ e = 2 ^ (e - low).toNat * 2 ^ low := by
  rw [← zpow_natCast, ← zpow_add₀ (by norm_num)]
  congr 1
  omega

/-- A number that doubles hold is a multiple of a place, or it is less than 52 bits of that place. -/
theorem Canonical.exists_multiple {m : Nat} {e : Int} (h : Canonical m e) (t : Int) :
    (∃ k : Nat, (m : ℚ) * 2 ^ e = k * 2 ^ t) ∨ e < t ∧ (m : ℚ) * 2 ^ e < 2 ^ 52 * 2 ^ t := by
  obtain hle | hlt := le_or_gt t e
  · refine .inl ⟨m * 2 ^ (e - t).toNat, ?_⟩
    rw [two_zpow_eq e hle]
    push_cast
    ring
  · refine .inr ⟨hlt, ?_⟩
    calc (m : ℚ) * 2 ^ e
      _ < 2 ^ 53 * 2 ^ e := by
        have : (m : ℚ) < 2 ^ 53 := by exact_mod_cast h.lt
        gcongr
      _ = 2 ^ 52 * 2 ^ (e + 1) := by
        rw [zpow_add_one₀ (by norm_num)]
        ring
      _ ≤ 2 ^ 52 * 2 ^ t := by
        gcongr
        · norm_num
        · omega

/-- An integer number of places that is nearest to a number is closest to it, when the number has all its
bits at that place or the place is the least. -/
private theorem closest_of_isNearest {q : ℚ} {n : Nat} {t : Int} (h0 : 0 ≤ q) (hn : IsNearest q n)
    (hfull : 2 ^ 52 ≤ q ∨ t = -1074) : Closest (q * 2 ^ t) (n * 2 ^ t) := by
  have hpos : (0 : ℚ) < 2 ^ t := by positivity
  have hdist (p : ℚ) : |p * 2 ^ t - q * 2 ^ t| = |p - q| * 2 ^ t := by
    rw [← sub_mul, abs_mul, abs_of_pos hpos]
  have hplace (k : ℕ) : |n * 2 ^ t - q * 2 ^ t| ≤ |k * 2 ^ t - q * 2 ^ t| := by
    rw [hdist, hdist]
    exact mul_le_mul_of_nonneg_right (by exact_mod_cast hn.closest k) hpos.le
  constructor
  · have hzero := hplace 0
    rw [Nat.cast_zero, zero_mul, zero_sub, abs_neg, abs_of_nonneg (mul_nonneg h0 hpos.le)] at hzero
    exact hzero
  · intro m e hc
    obtain ⟨k, hk⟩ | ⟨hlt, hk⟩ := hc.exists_multiple t
    · rw [hk]
      exact hplace k
    · -- What is below all places with 53 bits is farther away than the first of them.
      have hq : 2 ^ 52 * 2 ^ t ≤ q * 2 ^ t := by
        have := hc.exponent
        exact mul_le_mul_of_nonneg_right (hfull.resolve_right (by omega)) hpos.le
      refine (hplace (2 ^ 52)).trans ?_
      push_cast
      rw [abs_of_nonpos (by linarith), abs_of_nonpos (by linarith)]
      linarith

/-- What rounding makes of a mantissa with further bits, unless it has less than 53 bits and an exponent
that is too high. -/
private theorem isRounded_roundWithAccuracy (s : Sign) {m : Nat} {e : Int} {a : Accuracy} {q : ℚ}
    (hq : Stands (.ofMantissaAndAccuracy m a) q) (he : 2 ^ 52 ≤ m ∨ e ≤ -1074) :
    IsRounded s (q * 2 ^ e) (roundWithAccuracy .binary64 s m e a) := by
  have ht := le_target he
  let k := (target m e - e).toNat
  let em := ExtendedMantissa.ofMantissaAndAccuracy m a >>> k
  have hk : e + k = target m e := by omega
  have hem : Stands em (q / 2 ^ k) := hq.shiftRight k
  have hmantissa : em.mantissa = m / 2 ^ k := by
    rw [mantissa_shiftRight, mantissa_ofMantissaAndAccuracy]
  obtain ⟨hlt, hfull⟩ := bits_div ht
  rw [← hmantissa] at hlt hfull
  have hround := roundedMantissa_eq em
  have hle := hem.mantissa_le
  obtain ⟨n, f, hu, hv⟩ := exists_settle s (m := em.roundedMantissa) (e := target m e) (by omega)
    target_le (by omega)
  have hsettle : roundWithAccuracy .binary64 s m e a = settle s em.roundedMantissa (target m e) := by
    rw [← hk]
    simp only [roundWithAccuracy, settle, shiftToTargetExponent_eq m e a]
    rfl
  have hvalue : q * 2 ^ e = q / 2 ^ k * 2 ^ target m e := by
    rw [← hk, zpow_add₀ two_ne_zero, zpow_natCast]
    field_simp
  refine ⟨n, f, by rwa [hsettle], ?_⟩
  rw [hv, hvalue]
  refine closest_of_isNearest ((Nat.cast_nonneg _).trans hle) hem.isNearest ?_
  exact hfull.imp_left fun h => le_trans (by exact_mod_cast h) hle

theorem isRounded_round (s : Sign) {m : Nat} (e : Int) (hm : 0 < m) :
    IsRounded s (m * 2 ^ e) (round .binary64 s m e) := by
  let k := (e - target m e).toNat
  have hround : round .binary64 s m e =
      roundWithAccuracy .binary64 s (m * 2 ^ k) (e - k) .exact := by
    simp only [UnpackedFloat.round, decreaseExponent, targetExponent_eq, Nat.shiftLeft_eq, k]
  have hvalue : (m : ℚ) * 2 ^ e = (m * 2 ^ k : Nat) * 2 ^ (e - k) := by
    have hle : e - k ≤ e := by omega
    rw [two_zpow_eq e hle, show (e - (e - k)).toNat = k by omega]
    push_cast
    ring
  rw [hround, hvalue]
  refine isRounded_roundWithAccuracy s (stands_exact _) ?_
  have htarget : e - k = min e (target m e) := by omega
  rw [htarget]
  by_cases hlow : min e (target m e) ≤ -1074
  · exact .inr hlow
  · have hl : 52 ≤ m.log2 + k := by
      unfold target at hlow htarget
      omega
    refine .inl ?_
    calc 2 ^ 52
      _ ≤ 2 ^ (m.log2 + k) := Nat.pow_le_pow_right (by decide) hl
      _ = 2 ^ m.log2 * 2 ^ k := Nat.pow_add _ _ _
      _ ≤ m * 2 ^ k := Nat.mul_le_mul_right _ (Nat.log2_self_le hm.ne')

theorem isRounded_mul (s t : Sign) {m n : Nat} {e f : Int} (hm : 0 < m) (hn : 0 < n)
    (h : 2 ^ 52 ≤ m * n ∨ e + f ≤ -1074) :
    IsRounded (s * t) (m * 2 ^ e * (n * 2 ^ f)) (mul .binary64 (.finite s m e hm) (.finite t n f hn)) := by
  have hvalue : (m : ℚ) * 2 ^ e * (n * 2 ^ f) = (m * n : Nat) * 2 ^ (e + f) := by
    rw [zpow_add₀ two_ne_zero]
    push_cast
    ring
  rw [hvalue]
  exact isRounded_roundWithAccuracy (s * t) (stands_exact _) h

theorem isRounded_div (s t : Sign) {m n : Nat} (e f : Int) (hm : 0 < m) (hn : 0 < n) :
    IsRounded (s / t) (m * 2 ^ e / (n * 2 ^ f)) (div .binary64 (.finite s m e hm) (.finite t n f hn)) := by
  let low := min (e - f) (Format.binary64.targetExponent (totalExponent m e - totalExponent n f))
  let k := (e - f - low).toNat
  have hlow : low = min (e - f) (max (m.log2 + e - (n.log2 + f) - 53) (-1074)) := by
    simp only [low, Format.targetExponent, totalExponent, Format.mantissaBits, Format.minExponent]
    omega
  have hn0 : (n : ℚ) ≠ 0 := by exact_mod_cast hn.ne'
  have hdiv : div .binary64 (.finite s m e hm) (.finite t n f hn) =
      roundWithAccuracy .binary64 (s / t) (m * 2 ^ k / n) low (accuracyOfFraction (m * 2 ^ k % n) n) := by
    simp only [UnpackedFloat.div, divCore, Nat.shiftLeft_eq, low, k]
  have hvalue : (m : ℚ) * 2 ^ e / (n * 2 ^ f) = (m * 2 ^ k : Nat) / n * 2 ^ low := by
    have hef : (2 : ℚ) ^ (e - f) = 2 ^ k * 2 ^ low := two_zpow_eq _ (by omega)
    rw [mul_div_mul_comm, ← zpow_sub₀ two_ne_zero, hef]
    push_cast
    ring
  rw [hdiv, hvalue]
  refine isRounded_roundWithAccuracy (s / t) (stands_fraction _ hn) ?_
  by_cases hleast : low ≤ -1074
  · exact .inr hleast
  · have hl : n.log2 + 53 ≤ m.log2 + k := by omega
    refine .inl ?_
    rw [Nat.le_div_iff_mul_le hn]
    calc 2 ^ 52 * n
      _ ≤ 2 ^ 52 * 2 ^ (n.log2 + 1) := Nat.mul_le_mul_left _ Nat.lt_log2_self.le
      _ = 2 ^ (n.log2 + 53) := by
        rw [← Nat.pow_add]
        congr 1
        omega
      _ ≤ 2 ^ (m.log2 + k) := Nat.pow_le_pow_right (by decide) hl
      _ = 2 ^ m.log2 * 2 ^ k := Nat.pow_add _ _ _
      _ ≤ m * 2 ^ k := Nat.mul_le_mul_right _ (Nat.log2_self_le hm.ne')

private theorem log2_mul_two_pow {m : Nat} (hm : 0 < m) (k : Nat) :
    (m * 2 ^ k).log2 = m.log2 + k := by
  have hpos : m * 2 ^ k ≠ 0 := Nat.ne_of_gt (Nat.mul_pos hm (Nat.two_pow_pos k))
  rw [Nat.log2_eq_iff hpos, Nat.add_right_comm, Nat.pow_add, Nat.pow_add 2 (m.log2 + 1)]
  exact ⟨Nat.mul_le_mul_right _ (Nat.log2_self_le (Nat.ne_of_gt hm)),
    Nat.mul_lt_mul_of_pos_right Nat.lt_log2_self (Nat.two_pow_pos k)⟩

/-- The exponents of one number written twice agree when its leading digits do. -/
theorem log2_add_eq {m n : Nat} {e f : Int} (hm : 0 < m) (hn : 0 < n)
    (h : m * 2 ^ (e - f).toNat = n * 2 ^ (f - e).toNat) : m.log2 + e = n.log2 + f := by
  have hlog := congrArg Nat.log2 h
  rw [log2_mul_two_pow hm, log2_mul_two_pow hn] at hlog
  omega

end Lindenmayer
