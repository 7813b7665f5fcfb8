import Lindenmayer.Numeric.Arithmetic
import Lindenmayer.Proofs.Numeric.Order
import Lindenmayer.Proofs.Numeric.Packing

/-! The numbers that doubles stand for. Finite doubles are ordered as their numbers are, and a double
is known by its number, but for the sign of zero. -/
namespace Lindenmayer
open Float.Model (UnpackedFloat Format)
open Float.Model.UnpackedFloat

/-- The number that a numeral stands for. -/
def Binary.value (b : Binary) : ℚ :=
  (if b.negative then -(b.significand : ℚ) else b.significand) * 2 ^ b.exponent

/-- The number that a finite double stands for. -/
def value? (x : Float) : Option ℚ := (Binary.ofFloat? x).map Binary.value

/-- Some double stands for the number. -/
def IsDouble (q : ℚ) : Prop := ∃ x, value? x = some q

private def isNegative : Sign → Bool
  | .negative => true
  | .positive => false

private def numeral? : UnpackedFloat → Option Binary
  | .zero s => some ⟨isNegative s, 0, -1074⟩
  | .finite s m e _ => some ⟨isNegative s, m, e⟩
  | _ => none

private theorem toNat_fraction (u : UInt64) :
    (u &&& 0xfffffffffffff).toNat = (@unpackMantissa .binary64 u.toBitVec).toNat := by
  rw [toNat_unpackMantissa, UInt64.toNat_and]
  exact Nat.and_two_pow_sub_one_eq_mod u.toNat 52

private theorem toNat_field (u : UInt64) :
    (u >>> 52 &&& 0x7ff).toNat = (@unpackExponent .binary64 u.toBitVec).toNat := by
  rw [toNat_unpackExponent, UInt64.toNat_and, UInt64.toNat_shiftRight,
    ← Nat.shiftRight_eq_div_pow]
  exact Nat.and_two_pow_sub_one_eq_mod _ 11

private theorem beq_sign (u : UInt64) :
    (u >>> 63 == 1) = isNegative (Sign.ofBitVec (@unpackSign .binary64 u.toBitVec)) := by
  have hone : (u >>> 63 == 1) = ((@unpackSign .binary64 u.toBitVec).toNat == 1) := by
    rw [toNat_unpackSign, ← Nat.shiftRight_eq_div_pow, Bool.eq_iff_iff, beq_iff_eq, beq_iff_eq,
      ← UInt64.toNat_inj, UInt64.toNat_shiftRight]
    rfl
  rw [hone]
  generalize @unpackSign .binary64 u.toBitVec = v
  revert v
  decide

/-- The numeral of a double is made of the parts that it is unpacked to. -/
private theorem ofFloat?_eq_numeral? (x : Float) :
    Binary.ofFloat? x = numeral? x.toModel.unpack := by
  let u := x.toModel.toBits
  have hx : x.toBits = u := rfl
  change Binary.ofFloat? x = numeral? (unpack .binary64 u.toBitVec)
  simp only [Binary.ofFloat?, hx, toNat_fraction, toNat_field, beq_sign]
  generalize hE : @unpackExponent .binary64 u.toBitVec = E
  generalize hM : @unpackMantissa .binary64 u.toBitVec = M
  have htop : E.toNat = 0x7ff ↔ E = -1#_ := BitVec.toNat_inj (y := -1#11)
  have hbottom : E.toNat = 0 ↔ E = 0#_ := BitVec.toNat_inj (y := 0#11)
  have hzero : M.toNat = 0 ↔ M = 0#_ := BitVec.toNat_inj (y := 0#52)
  have hbias : ((Format.binary64.exponentBias : Nat) : Int) = 1023 := rfl
  have hwidth : ((Format.binary64.mantissaBitsWithoutImplicit : Nat) : Int) = 52 := rfl
  simp only [unpack, hE, hM, htop, hbottom]
  by_cases ht : E = -1#_
  · rw [if_pos ht, if_pos ht]
    split <;> rfl
  rw [if_neg ht, if_neg ht]
  by_cases hb : E = 0#_
  · rw [if_pos hb, if_pos hb]
    by_cases hz : M = 0#_
    · rw [dif_pos hz, hzero.mpr hz]
      rfl
    · rw [dif_neg hz]
      simp only [numeral?, hbottom.mpr hb, hbias, hwidth]
      norm_num
  · rw [if_neg hb, if_neg hb]
    simp only [numeral?, hbias, hwidth, toNat_append_one]
    norm_num

variable {x y : Float} {p q : ℚ}

/-- A double has a number when it is a zero or a finite double, and then by its parts. -/
theorem value?_eq_some_iff :
    value? x = some q ↔
      (∃ s, x.toModel.unpack = .zero s ∧ q = 0) ∨
        ∃ s m e hm, x.toModel.unpack = .finite s m e hm ∧ q = s.apply m * 2 ^ e := by
  rw [value?, ofFloat?_eq_numeral?]
  rcases x.toModel.unpack with s | _ | s | ⟨s, m, e, hm⟩
  · simp [numeral?]
  · simp [numeral?]
  · have hz (n : Bool) : Binary.value ⟨n, 0, -1074⟩ = 0 := by simp [Binary.value]
    simp [numeral?, hz, @eq_comm _ q]
  · have hv : Binary.value ⟨isNegative s, m, e⟩ = s.apply m * 2 ^ e := by
      cases s <;> simp [Binary.value, isNegative, Sign.apply]
    simp [numeral?, hv, hm, @eq_comm _ q]

theorem unpack_of_value? (h : value? x = some q) :
    (∃ s, x.toModel.unpack = .zero s ∧ q = 0) ∨
      ∃ s m e hm, x.toModel.unpack = .finite s m e hm ∧ q = s.apply m * 2 ^ e :=
  value?_eq_some_iff.mp h

/-- A numeral of a double has up to 53 bits and an exponent within the range. -/
theorem Binary.bounds_of_ofFloat? {b : Binary} (h : ofFloat? x = some b) :
    b.significand < 2 ^ 53 ∧ -1074 ≤ b.exponent ∧ b.exponent ≤ 971 := by
  rw [ofFloat?_eq_numeral?] at h
  cases hu : x.toModel.unpack with
  | infinity s => exact absurd (hu ▸ h) nofun
  | notANumber => exact absurd (hu ▸ h) nofun
  | zero s =>
    rw [hu] at h
    obtain rfl := Option.some.inj h
    exact ⟨Nat.two_pow_pos 53, le_rfl, by norm_num⟩
  | finite s m e hm =>
    obtain ⟨hc, he⟩ := canonical_of_unpack hu
    rw [hu] at h
    obtain rfl := Option.some.inj h
    exact ⟨hc.lt, hc.exponent, he⟩

theorem isFinite_iff_value? : x.isFinite = true ↔ ∃ q, value? x = some q := by
  have h : x.isFinite = x.toModel.unpack.isFinite := rfl
  rw [h, value?, ofFloat?_eq_numeral?]
  rcases x.toModel.unpack with s | _ | s | ⟨s, m, e, hm⟩ <;>
    simp [numeral?, UnpackedFloat.isFinite]

/-- The order of numbers as doubles hold them, by exponent and then by mantissa. -/
theorem Canonical.lt_iff {m n : Nat} {e f : Int} (hm : Canonical m e) (hn : Canonical n f) :
    e < f ∨ e = f ∧ m < n ↔ (m : ℚ) * 2 ^ e < n * 2 ^ f := by
  have hlt {m n : Nat} {e f : Int} (hm : Canonical m e) (hn : Canonical n f)
      (h : e < f ∨ e = f ∧ m < n) : (m : ℚ) * 2 ^ e < n * 2 ^ f := by
    obtain h | ⟨rfl, h⟩ := h
    · have hlow : 2 ^ 52 ≤ n := by
        have := hn.full
        have := hm.exponent
        omega
      calc (m : ℚ) * 2 ^ e
        _ < 2 ^ 53 * 2 ^ e := by
          have : (m : ℚ) < 2 ^ 53 := by exact_mod_cast hm.lt
          gcongr
        _ = 2 ^ 52 * 2 ^ (e + 1) := by
          rw [zpow_add_one₀ (by norm_num)]
          ring
        _ ≤ n * 2 ^ f := by
          have : (2 : ℚ) ^ 52 ≤ n := by exact_mod_cast hlow
          gcongr
          · norm_num
          · omega
    · gcongr
  refine ⟨hlt hm hn, fun h => ?_⟩
  by_contra hnot
  have hge : f < e ∨ f = e ∧ n ≤ m := by omega
  obtain hgt | ⟨rfl, hge⟩ := hge
  · exact (hlt hn hm (.inl hgt)).not_gt h
  · have : (n : ℚ) * 2 ^ f ≤ m * 2 ^ f := by gcongr
    exact this.not_gt h

/-- A double that stands for a number, by its parts. -/
private def Parts (u : UnpackedFloat) (q : ℚ) : Prop :=
  (∃ s, u = .zero s ∧ q = 0) ∨
    ∃ s m e hm, u = .finite s m e hm ∧ Canonical m e ∧ q = s.apply m * 2 ^ e

private theorem parts_of_value? (h : value? x = some q) : Parts x.toModel.unpack q := by
  obtain h | ⟨s, m, e, hm, hu, hq⟩ := unpack_of_value? h
  · exact .inl h
  · exact .inr ⟨s, m, e, hm, hu, (canonical_of_unpack hu).1, hq⟩

private theorem rank_lt_iff {u v : UnpackedFloat} (hu : Parts u p) (hv : Parts v q) :
    rank u < rank v ↔ p < q := by
  have hpos {m : Nat} (hm : 0 < m) (e : Int) : (0 : ℚ) < m * 2 ^ e := by positivity
  rcases hu with ⟨s, rfl, rfl⟩ | ⟨s, m, e, hm, rfl, hc, rfl⟩ <;>
    rcases hv with ⟨t, rfl, rfl⟩ | ⟨t, n, f, hn, rfl, hd, rfl⟩
  · simp [rank]
  · have := hpos hn f
    cases t <;> simp [rank, Prod.Lex.toLex_lt_toLex, Sign.apply, this, this.le]
  · have := hpos hm e
    cases s <;> simp [rank, Prod.Lex.toLex_lt_toLex, Sign.apply, this, this.le]
  · have hx := hpos hm e
    have hy := hpos hn f
    cases s <;> cases t <;>
      simp only [rank, Prod.Lex.toLex_lt_toLex, Sign.apply, Int.cast_neg, Int.cast_natCast, neg_mul,
        neg_lt_neg_iff, lt_self_iff_false, true_and, false_or, neg_inj]
    · rw [← hd.lt_iff hc, Nat.cast_lt, @eq_comm _ e]
    · exact iff_of_true (.inl (by decide)) (by linarith)
    · exact iff_of_false (by simp) (by linarith)
    · rw [← hc.lt_iff hd, Nat.cast_lt]

private theorem ne_notANumber (h : value? x = some q) : x.toModel.unpack ≠ .notANumber := by
  obtain ⟨s, hu, -⟩ | ⟨s, m, e, hm, hu, -⟩ := unpack_of_value? h <;> rw [hu] <;> exact nofun

theorem isNaN_of_value? (h : value? x = some q) : x.isNaN = false :=
  Bool.eq_false_iff.mpr fun hn => ne_notANumber h ((isNaN_iff x).mp hn)

theorem value_lt_iff (hx : value? x = some p) (hy : value? y = some q) : x < y ↔ p < q := by
  rw [float_lt_iff, and_iff_right (ne_notANumber hx), and_iff_right (ne_notANumber hy)]
  exact rank_lt_iff (parts_of_value? hx) (parts_of_value? hy)

theorem value_le_iff (hx : value? x = some p) (hy : value? y = some q) : x ≤ y ↔ p ≤ q := by
  rw [float_le_iff, and_iff_right (ne_notANumber hx), and_iff_right (ne_notANumber hy), ← not_lt,
    ← not_lt, rank_lt_iff (parts_of_value? hy) (parts_of_value? hx)]

theorem lt_infinity_of_value? (h : value? x = some p) : x < infinity := by
  have hinf : infinity.toModel.unpack = .infinity .positive := rfl
  rw [float_lt_iff, hinf, and_iff_right (ne_notANumber h), and_iff_right nofun]
  obtain ⟨s, hu, -⟩ | ⟨s, m, e, hm, hu, -⟩ := unpack_of_value? h <;> rw [hu] <;>
    cases s <;> simp [rank, Prod.Lex.toLex_lt_toLex]

theorem neg_infinity_lt_of_value? (h : value? x = some p) : -infinity < x := by
  have hinf : (-infinity).toModel.unpack = .infinity .negative := rfl
  rw [float_lt_iff, hinf, and_iff_right nofun, and_iff_right (ne_notANumber h)]
  obtain ⟨s, hu, -⟩ | ⟨s, m, e, hm, hu, -⟩ := unpack_of_value? h <;> rw [hu] <;>
    cases s <;> simp [rank, Prod.Lex.toLex_lt_toLex]

/-- Finite doubles are equal when they stand for one number. -/
theorem value_beq_iff (hx : value? x = some p) (hy : value? y = some q) :
    (x == y) = true ↔ p = q := by
  rw [beq_iff_le, value_le_iff hx hy, value_le_iff hy hx, ← le_antisymm_iff]

/-- Two doubles that stand for one number are the same, unless it is zero. -/
theorem eq_of_value? (hx : value? x = some q) (hy : value? y = some q) (hq : q ≠ 0) : x = y := by
  have hbeq := (beq_iff x y).mp ((value_beq_iff hx hy).mpr rfl)
  obtain h | ⟨s, t, hu, -⟩ := unsignedZero_eq_iff.mp hbeq.1
  · exact eq_of_unpack_eq h
  · obtain ⟨r, hr, rfl⟩ | ⟨r, m, e, hm, hr, -⟩ := unpack_of_value? hx
    · exact absurd rfl hq
    · exact absurd (hu.symm.trans hr) nofun

theorem value?_neg (h : value? x = some q) : value? (-x) = some (-q) := by
  have hneg : (-x).toModel = Float.Model.pack x.toModel.unpack.neg := rfl
  rw [value?_eq_some_iff, hneg]
  obtain ⟨s, hu, rfl⟩ | ⟨s, m, e, hm, hu, rfl⟩ := unpack_of_value? h
  · refine .inl ⟨-s, ?_, by simp⟩
    rw [hu]
    cases s <;> rfl
  · obtain ⟨hc, he⟩ := canonical_of_unpack hu
    refine .inr ⟨-s, m, e, hm, ?_, ?_⟩
    · rw [hu, UnpackedFloat.neg, unpack_pack _ hc, if_pos he]
    · cases s <;> simp [Sign.apply]

theorem value?_neg_iff : value? (-x) = some q ↔ value? x = some (-q) := by
  refine ⟨fun h => ?_, fun h => by simpa using value?_neg h⟩
  have hneg : (-x).toModel = Float.Model.pack x.toModel.unpack.neg := rfl
  have hfinite : x.isFinite = true := by
    have hf : (-x).isFinite = true := isFinite_iff_value?.mpr ⟨q, h⟩
    change (-x).toModel.unpack.isFinite = true at hf
    change x.toModel.unpack.isFinite = true
    rw [hneg] at hf
    generalize x.toModel.unpack = u at hf ⊢
    rcases u with s | _ | s | ⟨s, m, e, hm⟩
    · cases s <;> exact hf
    · exact hf
    · rfl
    · rfl
  obtain ⟨p, hp⟩ := isFinite_iff_value?.mp hfinite
  obtain rfl : -p = q := Option.some.inj ((value?_neg hp).symm.trans h)
  rw [hp, neg_neg]

theorem value?_abs (h : value? x = some q) : value? x.abs = some |q| := by
  have habs : x.abs.toModel = Float.Model.pack x.toModel.unpack.abs := rfl
  rw [value?_eq_some_iff, habs]
  obtain ⟨s, hu, rfl⟩ | ⟨s, m, e, hm, hu, rfl⟩ := unpack_of_value? h
  · refine .inl ⟨.positive, ?_, by simp⟩
    rw [hu]
    cases s <;> rfl
  · obtain ⟨hc, he⟩ := canonical_of_unpack hu
    refine .inr ⟨.positive, m, e, hm, ?_, ?_⟩
    · rw [hu, UnpackedFloat.abs, unpack_pack _ hc, if_pos he]
    · have : (0 : ℚ) ≤ m * 2 ^ e := by positivity
      cases s <;> simp [Sign.apply, abs_of_nonneg this]

theorem value?_pack_zero (s : Sign) : value? (.ofModel (.pack (.zero s))) = some 0 := by
  refine value?_eq_some_iff.mpr (.inl ⟨s, ?_, rfl⟩)
  cases s <;> rfl

theorem value?_zero : value? 0 = some 0 := value?_pack_zero .positive

theorem value?_one : value? 1 = some 1 := by decide +kernel

theorem zero_lt_infinity : 0 < infinity := lt_infinity_of_value? value?_zero

theorem neg_infinity_lt_zero : -infinity < 0 := neg_infinity_lt_of_value? value?_zero

theorem neg_infinity_lt_infinity : -infinity < infinity :=
  float_lt_of_lt_of_le neg_infinity_lt_zero (float_le_of_lt zero_lt_infinity)

theorem not_zero_le_neg_infinity : ¬ 0 ≤ -infinity := fun h =>
  float_lt_irrefl _ (float_lt_of_lt_of_le neg_infinity_lt_zero h)

theorem value?_pack_finite (s : Sign) {m : Nat} {e : Int} (hc : Canonical m e) (he : e ≤ 971) :
    value? (.ofModel (.pack (.finite s m e hc.pos))) = some (s.apply m * 2 ^ e : ℚ) := by
  refine value?_eq_some_iff.mpr (.inr ⟨s, m, e, hc.pos, ?_, rfl⟩)
  rw [unpack_pack s hc, if_pos he]

theorem isDouble_iff :
    IsDouble q ↔
      q = 0 ∨ ∃ (s : Sign) (m : Nat) (e : Int), Canonical m e ∧ e ≤ 971 ∧ q = s.apply m * 2 ^ e := by
  constructor
  · rintro ⟨x, hx⟩
    obtain ⟨s, -, rfl⟩ | ⟨s, m, e, hm, hu, rfl⟩ := unpack_of_value? hx
    · exact .inl rfl
    · obtain ⟨hc, he⟩ := canonical_of_unpack hu
      exact .inr ⟨s, m, e, hc, he, rfl⟩
  · rintro (rfl | ⟨s, m, e, hc, he, rfl⟩)
    · exact ⟨_, value?_pack_zero .positive⟩
    · exact ⟨_, value?_pack_finite s hc he⟩

/-- A double has one mantissa and one exponent for its magnitude. -/
theorem IsDouble.exists_canonical_of_pos {q : ℚ} (hq : 0 < q) (h : IsDouble q) :
    ∃ n f, Canonical n f ∧ f ≤ 971 ∧ q = n * 2 ^ f := by
  obtain rfl | ⟨t, n, f, hc, hf, rfl⟩ := isDouble_iff.mp h
  · exact absurd hq (lt_irrefl 0)
  · have hn : (0 : ℚ) < n * 2 ^ f := by
      have := hc.pos
      positivity
    refine ⟨n, f, hc, hf, ?_⟩
    cases t with
    | positive => rfl
    | negative =>
      simp only [Sign.apply, Int.cast_neg, Int.cast_natCast, neg_mul] at hq
      linarith

theorem IsDouble.neg (h : IsDouble q) : IsDouble (-q) := by
  obtain ⟨x, hx⟩ := h
  exact ⟨-x, value?_neg hx⟩

/-- Doubles stand for all numbers of up to 53 bits within the range of their exponents. -/
theorem isDouble_mul_two_zpow {m : Nat} {e : Int} (hm : m < 2 ^ 53) (he : -1074 ≤ e)
    (h : m.log2 + e ≤ 1023) : IsDouble (m * 2 ^ e) := by
  obtain rfl | hpos := Nat.eq_zero_or_pos m
  · exact isDouble_iff.mpr (.inl (by simp))
  have hlog : m.log2 < 53 := (Nat.log2_lt hpos.ne').mpr hm
  let k := min (52 - m.log2) (e + 1074).toNat
  have hk : k ≤ 52 - m.log2 := min_le_left _ _
  have hlt : m * 2 ^ k < 2 ^ 53 := by
    calc m * 2 ^ k
      _ < 2 ^ (m.log2 + 1) * 2 ^ k := Nat.mul_lt_mul_of_pos_right Nat.lt_log2_self (Nat.two_pow_pos k)
      _ = 2 ^ (m.log2 + 1 + k) := (Nat.pow_add _ _ _).symm
      _ ≤ 2 ^ 53 := Nat.pow_le_pow_right (by decide) (by omega)
  have hfull : 2 ^ 52 ≤ m * 2 ^ k ∨ e - k = -1074 := by
    obtain hmin | hmin := min_choice (52 - m.log2) (e + 1074).toNat
    · refine .inl ?_
      calc 2 ^ 52
        _ = 2 ^ m.log2 * 2 ^ k := by
          rw [← Nat.pow_add]
          congr 1
          omega
        _ ≤ m * 2 ^ k := Nat.mul_le_mul_right _ (Nat.log2_self_le hpos.ne')
    · exact .inr (by omega)
  have hc : Canonical (m * 2 ^ k) (e - k) :=
    ⟨Nat.mul_pos hpos (Nat.two_pow_pos k), hlt, by omega, hfull⟩
  refine isDouble_iff.mpr (.inr ⟨.positive, _, _, hc, by omega, ?_⟩)
  simp only [Sign.apply]
  push_cast
  rw [mul_assoc, ← zpow_natCast, ← zpow_add₀ two_ne_zero, add_sub_cancel]

theorem isDouble_of_exponent_le {m : Nat} {e : Int} (hm : m < 2 ^ 53) (he : -1074 ≤ e)
    (h : e ≤ 971) : IsDouble (m * 2 ^ e) := by
  refine isDouble_mul_two_zpow hm he ?_
  obtain rfl | hpos := Nat.eq_zero_or_pos m
  · rw [Nat.log2_zero]
    omega
  · have := (Nat.log2_lt hpos.ne').mpr hm
    omega

theorem log2_one : Nat.log2 1 = 0 := by decide

theorem isDouble_two_zpow {n : ℤ} (hlow : -1074 ≤ n) (hhigh : n ≤ 1023) : IsDouble (2 ^ n) := by
  have hpow := isDouble_mul_two_zpow (m := 1) (by decide) hlow (by rw [log2_one]; omega)
  rwa [Nat.cast_one, one_mul] at hpow

theorem isDouble_two_pow {n : ℕ} (h : n ≤ 1023) : IsDouble (2 ^ n) := by
  exact_mod_cast isDouble_two_zpow (n := n) (by omega) (by omega)

theorem isDouble_natCast {n : ℕ} (h : n ≤ 2 ^ 53) : IsDouble n := by
  obtain hlt | rfl := h.lt_or_eq
  · simpa using isDouble_of_exponent_le hlt (e := 0) (by decide) (by decide)
  · exact_mod_cast isDouble_two_pow (n := 53) (by decide)

/-- Doubles stand for all integers of up to 53 bits. -/
theorem isDouble_int {n : ℤ} (h : |n| ≤ 2 ^ 53) : IsDouble n := by
  have hnat : IsDouble n.natAbs := isDouble_natCast (by zify; exact h)
  obtain hn | hn := Int.natAbs_eq n
  · rw [hn, Int.cast_natCast]
    exact hnat
  · rw [hn, Int.cast_neg, Int.cast_natCast]
    exact hnat.neg

end Lindenmayer
