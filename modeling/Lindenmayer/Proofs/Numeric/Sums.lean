import Lindenmayer.Proofs.Numeric.Rounding
import Lindenmayer.Proofs.Numeric.Value

/-! Sums and differences of doubles. No double lies strictly between the exact result and the rounded
one. So a result that some double stands for is not rounded, and adding what is not negative leads to
nothing smaller. -/
namespace Lindenmayer
open Float.Model (UnpackedFloat)
open Float.Model.UnpackedFloat

/-- A double that a number is rounded to: none that stands for a number lies strictly between them, and
none is closer. -/
structure Rounds (x : Float) (r : ℚ) : Prop where
  below : ∀ {y p}, value? y = some p → p ≤ r → y ≤ x
  above : ∀ {y p}, value? y = some p → r ≤ p → x ≤ y
  nearest : ∀ {y p q}, value? x = some q → value? y = some p → |q - r| ≤ |p - r|

variable {x y a : Float} {p q r : ℚ}

theorem Rounds.of_nearest (hx : value? x = some q)
    (h : ∀ {y p}, value? y = some p → |q - r| ≤ |p - r|) : Rounds x r := by
  refine ⟨fun hy hp => (value_le_iff hy hx).mpr ?_, fun hy hp => (value_le_iff hx hy).mpr ?_,
    fun hq hy => ?_⟩
  · have hnear := neg_le_of_abs_le (h hy)
    rw [abs_of_nonpos (sub_nonpos.mpr hp)] at hnear
    linarith
  · have hnear := le_of_abs_le (h hy)
    rw [abs_of_nonneg (sub_nonneg.mpr hp)] at hnear
    linarith
  · obtain rfl := Option.some.inj (hx.symm.trans hq)
    exact h hy

theorem Rounds.of_value? (h : value? x = some r) : Rounds x r :=
  .of_nearest h fun _ => by simp

theorem eq_infinity_iff : x = infinity ↔ x.toModel.unpack = .infinity .positive :=
  ⟨fun h => by rw [h]; rfl, fun h => eq_of_unpack_eq (h.trans rfl)⟩

theorem eq_neg_infinity_iff : x = -infinity ↔ x.toModel.unpack = .infinity .negative :=
  ⟨fun h => by rw [h]; rfl, fun h => eq_of_unpack_eq (h.trans rfl)⟩

/-- A number is one of the infinities, or some number is its value. -/
theorem infinite_or_value? (h : x.isNaN = false) :
    x = infinity ∨ x = -infinity ∨ ∃ q, value? x = some q := by
  rw [← isFinite_iff_value?, eq_infinity_iff, eq_neg_infinity_iff]
  change _ ∨ _ ∨ x.toModel.unpack.isFinite = true
  have hn := mt (isNaN_iff x).mpr (Bool.eq_false_iff.mp h)
  generalize x.toModel.unpack = u at hn ⊢
  rcases u with (_ | _) | _ | _ | _
  · exact .inr (.inl rfl)
  · exact .inl rfl
  · exact absurd rfl hn
  · exact .inr (.inr rfl)
  · exact .inr (.inr rfl)

private theorem apply_one_mul_self (s : Sign) : ((s.apply 1 : ℤ) : ℚ) * s.apply 1 = 1 := by
  cases s <;> simp [Sign.apply]

theorem apply_one_mul (s : Sign) (m : Nat) : ((s.apply 1 : ℤ) : ℚ) * m = s.apply m := by
  cases s <;> simp [Sign.apply]

theorem isDouble_apply_one {s : Sign} {q : ℚ} : IsDouble (s.apply 1 * q) ↔ IsDouble q := by
  cases s with
  | positive => simp [Sign.apply]
  | negative =>
    simp only [Sign.apply, Int.cast_neg, Int.cast_one, neg_mul, one_mul]
    exact ⟨fun h => neg_neg q ▸ h.neg, IsDouble.neg⟩

/-- What is closest to a number, whatever its exponent, is closer than any double. -/
private theorem Closest.isDouble (h : Closest r q) (hp : IsDouble p) : |q - r| ≤ |p - r| := by
  obtain hp0 | hp0 := le_or_gt p 0
  · have hr := (abs_nonneg _).trans h.zero
    calc |q - r|
      _ ≤ r := h.zero
      _ ≤ r - p := by linarith
      _ ≤ |p - r| := by
        rw [abs_sub_comm]
        exact le_abs_self _
  · obtain ⟨m, e, hc, -, rfl⟩ := hp.exists_canonical_of_pos hp0
    exact h.canonical hc

/-- A number beyond the doubles is closest only to numbers beyond them. -/
private theorem Closest.lt_of_isDouble {n : Nat} {f : Int} (h : Closest r (n * 2 ^ f))
    (hc : Canonical n f) (hf : 971 < f) (hp : IsDouble p) : p < r := by
  by_contra hle
  obtain hp0 | hp0 := le_or_gt p 0
  · have := (abs_nonneg _).trans h.zero
    have hn : (0 : ℚ) < n * 2 ^ f := by
      have := hc.pos
      positivity
    have := h.zero
    rw [abs_of_nonneg (by linarith)] at this
    linarith
  · obtain ⟨m, e, hd, he, rfl⟩ := hp.exists_canonical_of_pos hp0
    have hlt := (hd.lt_iff hc).mp (.inl (by omega))
    have hnear := h.canonical hd
    rw [abs_of_nonneg (by linarith), abs_of_nonneg (by linarith)] at hnear
    linarith

/-- What a positive number is rounded to is, with the sign that goes with it, the double that it is
rounded to: an infinity when that lies beyond the doubles. -/
theorem IsRounded.rounds {s : Sign} {u : UnpackedFloat} (h : IsRounded s r u) :
    Rounds (.ofModel (.pack u)) (s.apply 1 * r) := by
  obtain ⟨n, f, hu, hclose⟩ := h
  have hdist (p : ℚ) : |p - s.apply 1 * r| = |s.apply 1 * p - r| := by
    cases s with
    | positive => simp [Sign.apply]
    | negative =>
      rw [abs_sub_comm]
      simp only [Sign.apply, Int.cast_neg, Int.cast_one, neg_mul, one_mul]
      congr 1
      ring
  have hfinite {x : Float} (hx : value? x = some (s.apply 1 * (n * 2 ^ f) : ℚ)) :
      Rounds x (s.apply 1 * r) := by
    refine .of_nearest hx fun {y p} hy => ?_
    rw [hdist, hdist, ← mul_assoc, apply_one_mul_self, one_mul]
    exact hclose.isDouble (isDouble_apply_one.mpr ⟨y, hy⟩)
  obtain ⟨rfl, rfl⟩ | ⟨hc, rfl⟩ := hu
  · refine hfinite ?_
    rw [value?_pack_zero, Nat.cast_zero, zero_mul, mul_zero]
  by_cases hf : f ≤ 971
  · refine hfinite ?_
    rw [value?_pack_finite s hc hf, ← mul_assoc, apply_one_mul]
  have hbeyond (p : ℚ) (hp : IsDouble p) : p < r := hclose.lt_of_isDouble hc (by omega) hp
  have hinf : (Float.Model.pack (.finite s n f hc.pos)).unpack = .infinity s := by
    rw [unpack_pack s hc, if_neg hf]
  cases s with
  | positive =>
    have hx : Float.ofModel (.pack (.finite .positive n f hc.pos)) = infinity :=
      eq_infinity_iff.mpr hinf
    simp only [hx, Sign.apply, Int.cast_one, one_mul]
    exact ⟨fun hy _ => float_le_of_lt (lt_infinity_of_value? hy),
      fun hy h => absurd h (hbeyond _ ⟨_, hy⟩).not_ge,
      fun hq => absurd (lt_infinity_of_value? hq) (float_lt_irrefl _)⟩
  | negative =>
    have hx : Float.ofModel (.pack (.finite .negative n f hc.pos)) = -infinity :=
      eq_neg_infinity_iff.mpr hinf
    simp only [hx, Sign.apply, Int.cast_neg, Int.cast_one, neg_mul, one_mul]
    exact ⟨fun hy h => absurd (le_neg_of_le_neg h) (hbeyond _ ⟨_, value?_neg hy⟩).not_ge,
      fun hy _ => float_le_of_lt (neg_infinity_lt_of_value? hy),
      fun hq => absurd (neg_infinity_lt_of_value? hq) (float_lt_irrefl _)⟩

theorem le_infinity (h : x.isNaN = false) : x ≤ infinity := by
  obtain rfl | rfl | ⟨q, hq⟩ := infinite_or_value? h
  · exact float_le_refl h
  · exact float_le_of_lt neg_infinity_lt_infinity
  · exact float_le_of_lt (lt_infinity_of_value? hq)

/-- Rounding keeps the order. -/
theorem Rounds.mono {s : ℚ} (hx : Rounds x r) (hy : Rounds y s) (hp : value? x = some p)
    (hq : value? y = some q) (h : r < s) : p ≤ q := by
  by_contra hlt
  have hxq := hx.nearest hp hq
  have hyp := hy.nearest hq hp
  -- What is nearest is on its own side of the middle.
  have hr : p + q ≤ 2 * r := by
    by_contra hr
    rw [abs_of_pos (by linarith : 0 < p - r), le_abs] at hxq
    obtain hxq | hxq := hxq <;> linarith
  have hs : 2 * s ≤ p + q := by
    by_contra hs
    rw [abs_of_neg (by linarith : q - s < 0), le_abs] at hyp
    obtain hyp | hyp := hyp <;> linarith
  linarith

/-- What lies between numbers that doubles stand for is rounded to a number between them. -/
theorem Rounds.exists_value (h : Rounds x r) (hp : IsDouble p) (hpr : p ≤ r) (hq : IsDouble q)
    (hrq : r ≤ q) : ∃ v, value? x = some v ∧ p ≤ v ∧ v ≤ q := by
  obtain ⟨y, hy⟩ := hp
  obtain ⟨z, hz⟩ := hq
  have hyx := h.below hy hpr
  have hxz := h.above hz hrq
  obtain rfl | rfl | ⟨v, hv⟩ := infinite_or_value? (isNaN_of_le hxz)
  · exact absurd (float_lt_of_lt_of_le (lt_infinity_of_value? hz) hxz) (float_lt_irrefl z)
  · exact absurd (float_lt_of_lt_of_le (neg_infinity_lt_of_value? hy) hyx) (float_lt_irrefl _)
  · exact ⟨v, hv, (value_le_iff hy hv).mp hyx, (value_le_iff hv hz).mp hxz⟩

theorem Rounds.le_value (h : Rounds x r) (hq : value? x = some q) (hp : IsDouble p) (hpr : p ≤ r) :
    p ≤ q := by
  obtain ⟨y, hy⟩ := hp
  exact (value_le_iff hy hq).mp (h.below hy hpr)

theorem Rounds.value_le (h : Rounds x r) (hq : value? x = some q) (hp : IsDouble p) (hpr : r ≤ p) :
    q ≤ p := by
  obtain ⟨y, hy⟩ := hp
  exact (value_le_iff hq hy).mp (h.above hy hpr)

/-- A number that a double stands for is rounded to nothing else. -/
theorem Rounds.value?_eq (h : Rounds x r) (hr : IsDouble r) : value? x = some r := by
  obtain ⟨v, hv, hle, hge⟩ := h.exists_value hr le_rfl hr le_rfl
  rw [hv, le_antisymm hge hle]

private theorem rounds_round (s : Sign) {m : Nat} (e : Int) (hm : 0 < m) :
    Rounds (.ofModel (.pack (round .binary64 s m e))) (s.apply m * 2 ^ e) := by
  rw [← apply_one_mul, mul_assoc]
  exact (isRounded_round s e hm).rounds

theorem rounds_normalize (m e : Int) (z : Sign) :
    Rounds (.ofModel (.pack (UnpackedFloat.normalize .binary64 m e z))) (m * 2 ^ e) := by
  unfold UnpackedFloat.normalize
  obtain h | rfl | h := lt_trichotomy m 0
  · have hm : Sign.negative.apply ((-m).toNat : ℤ) = m := by
      simp only [Sign.apply]
      omega
    rw [Int.compare_eq_lt.mpr h]
    simpa only [hm] using rounds_round .negative (m := (-m).toNat) e (by omega)
  · exact .of_value? (by simpa using value?_pack_zero z)
  · have hm : Sign.positive.apply (m.toNat : ℤ) = m := by
      simp only [Sign.apply]
      omega
    rw [Int.compare_eq_gt.mpr h]
    simpa only [hm] using rounds_round .positive (m := m.toNat) e (by omega)

private theorem aligned (s : Sign) (m : Nat) {e low : Int} (h : low ≤ e) :
    ((s.apply (decreaseExponent m e low).1 : ℤ) : ℚ) * 2 ^ low = s.apply m * 2 ^ e := by
  cases s <;> simp [decreaseExponent, Sign.apply, Nat.shiftLeft_eq, two_zpow_eq e h, mul_assoc]

private theorem ofModel_pack_unpack (x : Float) : Float.ofModel (.pack x.toModel.unpack) = x := by
  rw [model_pack_unpack]

theorem rounds_add (hx : value? x = some p) (hy : value? y = some q) : Rounds (x + y) (p + q) := by
  have hadd : x + y =
      .ofModel (.pack (UnpackedFloat.add .binary64 x.toModel.unpack y.toModel.unpack)) := rfl
  rw [hadd]
  obtain ⟨s, hu, rfl⟩ | ⟨s, m, e, hm, hu, rfl⟩ := unpack_of_value? hx <;>
    obtain ⟨t, hv, rfl⟩ | ⟨t, n, f, hn, hv, rfl⟩ := unpack_of_value? hy
  · rw [hu, hv, add_zero]
    cases s <;> cases t <;> exact .of_value? (value?_pack_zero _)
  · have hsum : UnpackedFloat.add .binary64 x.toModel.unpack y.toModel.unpack =
      y.toModel.unpack := by rw [hu, hv]; rfl
    rw [hsum, ofModel_pack_unpack, zero_add]
    exact .of_value? hy
  · have hsum : UnpackedFloat.add .binary64 x.toModel.unpack y.toModel.unpack =
      x.toModel.unpack := by rw [hu, hv]; rfl
    rw [hsum, ofModel_pack_unpack, add_zero]
    exact .of_value? hx
  · rw [hu, hv]
    have hsum := rounds_normalize (s.apply (decreaseExponent m e (min e f)).1 +
      t.apply (decreaseExponent n f (min e f)).1) (min e f) .positive
    rwa [Int.cast_add, add_mul, aligned s m (min_le_left e f),
      aligned t n (min_le_right e f)] at hsum

theorem rounds_sub (hx : value? x = some p) (hy : value? y = some q) : Rounds (x - y) (p - q) := by
  have hsub : x - y =
      .ofModel (.pack (UnpackedFloat.sub .binary64 x.toModel.unpack y.toModel.unpack)) := rfl
  rw [hsub]
  obtain ⟨s, hu, rfl⟩ | ⟨s, m, e, hm, hu, rfl⟩ := unpack_of_value? hx <;>
    obtain ⟨t, hv, rfl⟩ | ⟨t, n, f, hn, hv, rfl⟩ := unpack_of_value? hy
  · rw [hu, hv, sub_zero]
    cases s <;> cases t <;> exact .of_value? (value?_pack_zero _)
  · have hneg : UnpackedFloat.sub .binary64 x.toModel.unpack y.toModel.unpack =
      y.toModel.unpack.neg := by rw [hu, hv]; rfl
    rw [hneg, zero_sub]
    exact .of_value? (value?_neg hy)
  · have hdiff : UnpackedFloat.sub .binary64 x.toModel.unpack y.toModel.unpack =
      x.toModel.unpack := by rw [hu, hv]; rfl
    rw [hdiff, ofModel_pack_unpack, sub_zero]
    exact .of_value? hx
  · rw [hu, hv]
    have hdiff := rounds_normalize (s.apply (decreaseExponent m e (min e f)).1 -
      t.apply (decreaseExponent n f (min e f)).1) (min e f) .positive
    rwa [Int.cast_sub, sub_mul, aligned s m (min_le_left e f),
      aligned t n (min_le_right e f)] at hdiff

theorem value?_add (hx : value? x = some p) (hy : value? y = some q) (h : IsDouble (p + q)) :
    value? (x + y) = some (p + q) :=
  (rounds_add hx hy).value?_eq h

theorem value?_sub (hx : value? x = some p) (hy : value? y = some q) (h : IsDouble (p - q)) :
    value? (x - y) = some (p - q) :=
  (rounds_sub hx hy).value?_eq h

theorem add_infinity (h : -infinity < x) : x + infinity = infinity := by
  have hsum : x + infinity =
      .ofModel (.pack (UnpackedFloat.add .binary64 x.toModel.unpack (.infinity .positive))) := rfl
  obtain rfl | rfl | ⟨p, hp⟩ := infinite_or_value? (isNaN_of_ge (float_le_of_lt h))
  · exact eq_infinity_iff.mpr rfl
  · exact absurd h (float_lt_irrefl _)
  · rw [hsum]
    obtain ⟨s, hu, -⟩ | ⟨s, m, e, hm, hu, -⟩ := unpack_of_value? hp <;> rw [hu] <;> rfl

theorem infinity_add (hx : value? x = some p) : infinity + x = infinity := by
  have hsum : infinity + x =
      .ofModel (.pack (UnpackedFloat.add .binary64 (.infinity .positive) x.toModel.unpack)) := rfl
  rw [hsum]
  obtain ⟨s, hu, -⟩ | ⟨s, m, e, hm, hu, -⟩ := unpack_of_value? hx <;> rw [hu] <;> rfl

private theorem sub_infinity (hx : value? x = some p) : x - infinity = -infinity := by
  have hdiff : x - infinity =
      .ofModel (.pack (UnpackedFloat.sub .binary64 x.toModel.unpack (.infinity .positive))) := rfl
  rw [hdiff]
  obtain ⟨s, hu, -⟩ | ⟨s, m, e, hm, hu, -⟩ := unpack_of_value? hx <;> rw [hu] <;> rfl

/-- A sum with what is not negative is not below the other operand. -/
theorem float_le_add (hx : -infinity < x) (ha : 0 ≤ a) : x ≤ x + a := by
  have hnan := isNaN_of_ge (float_le_of_lt hx)
  obtain rfl | rfl | ⟨q, hq⟩ := infinite_or_value? (isNaN_of_ge ha)
  · rw [add_infinity hx]
    obtain rfl | rfl | ⟨p, hp⟩ := infinite_or_value? hnan
    · exact float_le_refl hnan
    · exact absurd hx (float_lt_irrefl _)
    · exact float_le_of_lt (lt_infinity_of_value? hp)
  · exact absurd ha not_zero_le_neg_infinity
  obtain rfl | rfl | ⟨p, hp⟩ := infinite_or_value? hnan
  · rw [infinity_add hq]
    exact float_le_refl hnan
  · exact absurd hx (float_lt_irrefl _)
  · have h0 := (value_le_iff value?_zero hq).mp ha
    exact (rounds_add hp hq).below hp (le_add_of_nonneg_right h0)

theorem le_add_of_pos (hx : 0 < x) (ha : 0 < a) : x ≤ x + a :=
  float_le_add (float_lt_of_lt_of_le neg_infinity_lt_zero (float_le_of_lt hx)) (float_le_of_lt ha)

/-- A difference to what is not negative is not above its first operand. -/
theorem float_sub_le (hx : value? x = some p) (ha : 0 ≤ a) : x - a ≤ x := by
  obtain rfl | rfl | ⟨q, hq⟩ := infinite_or_value? (isNaN_of_ge ha)
  · rw [sub_infinity hx]
    exact float_le_of_lt (neg_infinity_lt_of_value? hx)
  · exact absurd ha not_zero_le_neg_infinity
  · have h0 := (value_le_iff value?_zero hq).mp ha
    exact (rounds_sub hx hq).above hx (sub_le_self p h0)

/-- Zeros stay zeros when they are packed. -/
private theorem pack_congr {u v : UnpackedFloat} (h : unsignedZero u = unsignedZero v) :
    unsignedZero (Float.Model.pack u).unpack = unsignedZero (Float.Model.pack v).unpack := by
  obtain rfl | ⟨s, t, rfl, rfl⟩ := unsignedZero_eq_iff.mp h
  · rfl
  · cases s <;> cases t <;> rfl

private theorem operand_congr {op : UnpackedFloat → UnpackedFloat → UnpackedFloat}
    (hop : ∀ s t v, unsignedZero (op (.zero s) v) = unsignedZero (op (.zero t) v))
    {u v w : UnpackedFloat} (h : unsignedZero u = unsignedZero v) :
    unsignedZero (Float.Model.pack (op u w)).unpack =
      unsignedZero (Float.Model.pack (op v w)).unpack := by
  refine pack_congr ?_
  obtain rfl | ⟨s, t, rfl, rfl⟩ := unsignedZero_eq_iff.mp h
  · rfl
  · exact hop s t w

/-- Equal numbers have equal sums, unless these are not numbers. -/
theorem float_add_congr (h : (x == y) = true) (hn : (x + a).isNaN = false) :
    (x + a == y + a) = true := by
  have hzero (s t : Sign) (v : UnpackedFloat) :
      unsignedZero (add .binary64 (.zero s) v) = unsignedZero (add .binary64 (.zero t) v) := by
    cases v with
    | zero r => cases s <;> cases t <;> cases r <;> rfl
    | _ => rfl
  exact (beq_iff _ _).mpr
    ⟨operand_congr hzero ((beq_iff x y).mp h).1, mt (isNaN_iff _).mpr (Bool.eq_false_iff.mp hn)⟩

theorem float_sub_congr (h : (x == y) = true) (hn : (x - a).isNaN = false) :
    (x - a == y - a) = true := by
  have hzero (s t : Sign) (v : UnpackedFloat) :
      unsignedZero (sub .binary64 (.zero s) v) = unsignedZero (sub .binary64 (.zero t) v) := by
    cases v with
    | zero r => cases s <;> cases t <;> cases r <;> rfl
    | _ => rfl
  exact (beq_iff _ _).mpr
    ⟨operand_congr hzero ((beq_iff x y).mp h).1, mt (isNaN_iff _).mpr (Bool.eq_false_iff.mp hn)⟩

private theorem zero_le_of_unpack (h : x.toModel.unpack = .infinity .positive ∨
    x.toModel.unpack = .zero .positive ∨ ∃ m e hm, x.toModel.unpack = .finite .positive m e hm) :
    0 ≤ x := by
  have hz : (0 : Float).toModel.unpack = .zero .positive := rfl
  rw [float_le_iff, hz]
  obtain h | h | ⟨m, e, hm, h⟩ := h <;> rw [h] <;> refine ⟨nofun, nofun, ?_⟩
  · decide
  · exact le_rfl
  · simp [rank, Prod.Lex.toLex_le_toLex]

/-- Half of a magnitude is not negative, also where it is rounded. -/
theorem zero_le_half_abs (h : x.isNaN = false) : 0 ≤ x.abs / 2 := by
  have htwo : (2 : Float).toModel.unpack = .finite .positive (2 ^ 52) (-51) (by decide) := rfl
  have hhalf : x.abs / 2 = .ofModel (.pack (div .binary64
      (Float.Model.pack x.toModel.unpack.abs).unpack (2 : Float).toModel.unpack)) := rfl
  have hn := mt (isNaN_iff x).mpr (Bool.eq_false_iff.mp h)
  rw [hhalf, htwo]
  apply zero_le_of_unpack
  cases hu : x.toModel.unpack with
  | notANumber => exact absurd hu hn
  | infinity s => cases s <;> exact .inl rfl
  | zero s => cases s <;> exact .inr (.inl rfl)
  | finite s m e hm =>
    obtain ⟨hc, he⟩ := canonical_of_unpack hu
    rw [UnpackedFloat.abs, unpack_pack .positive hc, if_pos he]
    simp only [div, roundWithAccuracy]
    split
    · exact .inr (.inl rfl)
    · exact unpack_pack_cases _ _ _ _

/-- Adding to nothing leaves a positive number as it is. -/
theorem zero_add_of_pos (hx : 0 < x) : 0 + x = x := by
  have hadd : add .binary64 (0 : Float).toModel.unpack x.toModel.unpack = x.toModel.unpack := by
    have hz : (0 : Float).toModel.unpack = .zero .positive := rfl
    obtain hx | ⟨m, e, hm, hx⟩ := zero_lt_iff.mp hx <;> rw [hz, hx] <;> rfl
  have hsum : 0 + x = .ofModel (.pack x.toModel.unpack) := by
    rw [← hadd]
    rfl
  rw [hsum, ofModel_pack_unpack]

end Lindenmayer
