import Lindenmayer.Proofs.Numeric.Whole
import Lindenmayer.Turtle.Decoration

/-! Widths that taper. They are positive at every depth, and they fall toward the twigs as long as two
levels or more are left. Below that the last term takes over and they rise again. -/
namespace Lindenmayer

section Powers
variable {n : ℤ}

private theorem value?_ten : value? 10 = some 10 := value?_literal 10 (by decide)

private theorem isDouble_ten_mul (hlow : -1074 ≤ n) (hhigh : n ≤ 1020) :
    IsDouble (10 * 2 ^ n) := by
  have hlog : Nat.log2 10 = 3 := by decide
  exact_mod_cast isDouble_mul_two_zpow (m := 10) (e := n) (by decide) hlow (by omega)

private theorem value?_ten_mul (hlow : -1074 ≤ n) (hhigh : n ≤ 1020) :
    value? (10 * powerOfTwo n) = some (10 * 2 ^ n : ℚ) :=
  value?_mul value?_ten (value?_powerOfTwo hlow (by omega)) (isDouble_ten_mul hlow hhigh)

private theorem ten_mul_of_gt (h : 1020 < n) : 10 * powerOfTwo n = infinity := by
  obtain hle | hlt := le_or_gt n 1023
  · obtain rfl | rfl | rfl : n = 1021 ∨ n = 1022 ∨ n = 1023 := by omega
    all_goals exact eq_infinity_iff.mpr rfl
  · rw [powerOfTwo_of_gt hlt]
    exact eq_infinity_iff.mpr rfl

private theorem exists_ten_mul (h : n ≤ 0) :
    ∃ q, value? (10 * powerOfTwo n) = some q ∧ 0 ≤ q ∧ q ≤ 10 := by
  obtain ⟨q, hq, h0, h1⟩ := exists_powerOfTwo h
  exact (rounds_mul value?_ten hq).exists_value ⟨0, value?_zero⟩ (by linarith) ⟨10, value?_ten⟩
    (by linarith)

private theorem zero_le_ten_mul (n : ℤ) : 0 ≤ 10 * powerOfTwo n := by
  obtain hle | hlt := le_or_gt n 0
  · obtain ⟨q, hq, h0, -⟩ := exists_ten_mul hle
    exact (value_le_iff value?_zero hq).mpr h0
  obtain hle | hlt := le_or_gt n 1020
  · exact (value_le_iff value?_zero (value?_ten_mul (by omega) hle)).mpr (by positivity)
  · rw [ten_mul_of_gt hlt]
    exact float_le_of_lt zero_lt_infinity

end Powers

namespace Taper

/-- The number of levels left at a depth. -/
def left (t : Taper) (depth : Nat) : Float := Float.ofNat t.levels - Float.ofNat depth

/-- The terms of a width that grow with the levels left. -/
def growth (d : Float) : Float := d + 10 * powerOfTwo (integerPart (d - 9))

/-- The term of a width that falls with the levels left. -/
def flare (d : Float) : Float := powerOfTwo (2 * integerPart (2 - d))

/-- The width where the given number of levels is left. -/
def breadth (d : Float) : Float := growth d + flare d

theorem width_eq (t : Taper) (depth : Nat) : t.width depth = breadth (t.left depth) := rfl

section Breadths
variable {c d : Float} {k : ℤ}

private theorem value?_two : value? 2 = some ((2 : ℤ) : ℚ) := value?_literal 2 (by decide)

private theorem value?_nine : value? 9 = some ((9 : ℤ) : ℚ) := value?_literal 9 (by decide)

private theorem le_growth (h : value? d = some (k : ℚ)) : d ≤ growth d :=
  float_le_add (neg_infinity_lt_of_value? h) (zero_le_ten_mul _)

private theorem growth_le (h : value? d = some (k : ℚ)) : growth d ≤ breadth d :=
  float_le_add (float_lt_of_lt_of_le (neg_infinity_lt_of_value? h) (le_growth h))
    (zero_le_powerOfTwo _)

/-- With few levels the terms that grow are rounded once. -/
private theorem rounds_growth (h : value? d = some (k : ℚ)) (hlow : 0 ≤ k) (hhigh : k ≤ 1029) :
    Rounds (growth d) (k + 10 * 2 ^ (k - 9)) := by
  have hpart : integerPart (d - 9) = k - 9 := by
    refine integerPart_eq (value?_sub_int h value?_nine ?_)
    rw [abs_le]
    omega
  unfold growth
  rw [hpart]
  exact rounds_add h (value?_ten_mul (by omega) (by omega))

private theorem growth_of_gt (h : value? d = some (k : ℚ)) (hlow : 1029 < k) (hhigh : k ≤ 2 ^ 64) :
    growth d = infinity := by
  obtain ⟨i, hi, hround⟩ := exists_sub_int h value?_nine (by rw [abs_le]; omega)
  have hlarge : 1021 ≤ i := hround.le_int hi (isDouble_int (by decide)) (by omega)
  unfold growth
  rw [integerPart_eq hi, ten_mul_of_gt (by omega), add_infinity (neg_infinity_lt_of_value? h)]

/-- Up to 49 levels the terms that grow are not rounded. -/
private theorem value?_growth {n : ℕ} (h : value? d = some (n : ℚ)) (hn : n ≤ 49) :
    value? (growth d) = some (n + 10 * 2 ^ n / 2 ^ 9 : ℚ) := by
  have hterms : (n : ℚ) + 10 * 2 ^ n / 2 ^ 9 = (n * 2 ^ 9 + 10 * 2 ^ n : ℕ) * 2 ^ (-9 : ℤ) := by
    push_cast
    rw [zpow_neg, zpow_ofNat]
    ring
  have hround := rounds_growth (k := n) (by exact_mod_cast h) (by omega) (by omega)
  rw [zpow_sub₀ two_ne_zero, zpow_natCast, zpow_ofNat, ← mul_div_assoc, Int.cast_natCast] at hround
  refine hround.value?_eq ?_
  rw [hterms]
  refine isDouble_of_exponent_le ?_ (by decide) (by decide)
  calc n * 2 ^ 9 + 10 * 2 ^ n
    _ ≤ 49 * 2 ^ 9 + 10 * 2 ^ 49 := by
      gcongr
      omega
    _ < 2 ^ 53 := by decide

/-- With more levels the power alone bounds the terms that grow from both sides. -/
private theorem growth_bounds {n : ℕ} (h : value? d = some ((n + 9 : ℕ) : ℚ)) (hlow : 4 ≤ n)
    (hhigh : n ≤ 1020) : ∃ q, value? (growth d) = some q ∧ 10 * 2 ^ n ≤ q ∧ q ≤ 11 * 2 ^ n := by
  have hround := rounds_growth (k := (n + 9 : ℕ)) (by exact_mod_cast h) (by omega) (by omega)
  have hexp : ((n + 9 : ℕ) : ℤ) - 9 = n := by omega
  rw [hexp, zpow_natCast, Int.cast_natCast] at hround
  have hlog : Nat.log2 11 = 3 := by decide
  have hten := isDouble_ten_mul (n := n) (by omega) (by omega)
  have heleven := isDouble_mul_two_zpow (m := 11) (e := n) (by decide) (by omega) (by omega)
  rw [zpow_natCast] at hten heleven
  have hsmall : n + 9 ≤ 2 ^ n := by
    have hpow : 2 ^ n = 2 ^ (n - 4) * 2 ^ 4 := by
      rw [← Nat.pow_add]
      congr 1
      omega
    have := (n - 4).lt_two_pow_self
    omega
  have hterm : ((n + 9 : ℕ) : ℚ) ≤ 2 ^ n := by exact_mod_cast hsmall
  refine hround.exists_value hten ?_ (by exact_mod_cast heleven) ?_ <;> push_cast at hterm ⊢ <;> linarith

private theorem value?_flare {k : ℤ} (h : value? d = some (k : ℚ)) (hlow : -509 ≤ k) (hhigh : k ≤ 512) :
    value? (flare d) = some (2 ^ (2 * (2 - k)) : ℚ) := by
  have hpart : integerPart (2 - d) = 2 - k := by
    refine integerPart_eq (value?_sub_int value?_two h ?_)
    rw [abs_le]
    omega
  unfold flare
  rw [hpart]
  exact value?_powerOfTwo (by omega) (by omega)

private theorem exists_flare (h : value? d = some (k : ℚ)) (hlow : 2 ≤ k) (hhigh : k ≤ 2 ^ 64) :
    ∃ q, value? (flare d) = some q ∧ 0 ≤ q ∧ q ≤ 1 := by
  obtain ⟨j, hj, hround⟩ := exists_sub_int value?_two h (by rw [abs_le]; omega)
  have hsign : j ≤ 0 := hround.int_le hj (isDouble_int (by decide)) (by omega)
  unfold flare
  rw [integerPart_eq hj]
  exact exists_powerOfTwo (by omega)

/-- One level more lets the terms that grow rise by one at least. -/
private theorem growth_add_one_le {m n : ℕ} (hd : value? d = some (m : ℚ)) (hc : value? c = some (n : ℚ))
    (hlt : n < m) (hm : m ≤ 1029) :
    ∃ p q, value? (growth c) = some p ∧ value? (growth d) = some q ∧ p + 1 ≤ q := by
  obtain hsmall | hlarge := Nat.lt_or_ge m 50
  · refine ⟨_, _, value?_growth hc (by omega), value?_growth hd (by omega), ?_⟩
    have hterm : (n : ℚ) + 1 ≤ m := by exact_mod_cast hlt
    have hpow : (2 : ℚ) ^ n ≤ 2 ^ m := pow_le_pow_right₀ one_le_two hlt.le
    linarith
  obtain ⟨j, rfl⟩ := Nat.exists_eq_add_of_le' (show 9 ≤ m by omega)
  obtain ⟨q, hq, hlow, -⟩ := growth_bounds hd (by omega) (by omega)
  obtain hn | hn := Nat.lt_or_ge n 50
  · refine ⟨_, q, value?_growth hc (by omega), hq, ?_⟩
    have hterm : (n : ℚ) ≤ 49 := by exact_mod_cast (by omega : n ≤ 49)
    have hpow : (2 : ℚ) ^ n ≤ 2 ^ 49 := pow_le_pow_right₀ one_le_two (by omega)
    have hpow' : (2 : ℚ) ^ 41 ≤ 2 ^ j := pow_le_pow_right₀ one_le_two (by omega)
    linarith
  · obtain ⟨i, rfl⟩ := Nat.exists_eq_add_of_le' (show 9 ≤ n by omega)
    obtain ⟨p, hp, -, hhigh⟩ := growth_bounds hc (by omega) (by omega)
    refine ⟨p, q, hp, hq, ?_⟩
    have hone : (1 : ℚ) ≤ 2 ^ i := one_le_pow₀ one_le_two
    have hpow : (2 : ℚ) ^ (i + 1) ≤ 2 ^ j := pow_le_pow_right₀ one_le_two (by omega)
    rw [pow_succ] at hpow
    linarith

/-- With two levels or more the term that falls is too small to undo a level. -/
private theorem breadth_le_of_lt {m n : ℕ} (hd : value? d = some (m : ℚ)) (hc : value? c = some (n : ℚ))
    (hn : 2 ≤ n) (hlt : n < m) (hm : m ≤ 2 ^ 64) : breadth c ≤ breadth d := by
  have hc' : value? c = some ((n : ℤ) : ℚ) := by exact_mod_cast hc
  have hd' : value? d = some ((m : ℤ) : ℚ) := by exact_mod_cast hd
  refine float_le_trans ?_ (growth_le hd')
  obtain hsmall | hlarge := Nat.lt_or_ge 1029 m
  · rw [growth_of_gt hd' (by omega) (by omega)]
    exact le_infinity (isNaN_of_ge (growth_le hc'))
  · obtain ⟨p, q, hp, hq, hpq⟩ := growth_add_one_le hd hc hlt hlarge
    obtain ⟨r, hr, -, hr1⟩ := exists_flare hc' (by omega) (by omega)
    exact (rounds_add hp hr).above hq (by linarith)

/-- The widths of the last levels. -/
private theorem value?_breadth {n : ℕ} (h : value? d = some (n : ℚ)) (hn : n ≤ 9) :
    value? (breadth d) = some (n + 10 * 2 ^ n / 2 ^ 9 + 2 ^ (2 * (2 - n : ℤ)) : ℚ) := by
  refine value?_add (value?_growth h (by omega))
    (value?_flare (k := n) (by exact_mod_cast h) (by omega) (by omega)) ?_
  have hsum : (n : ℚ) + 10 * 2 ^ n / 2 ^ 9 + 2 ^ (2 * (2 - n : ℤ)) =
      (n * 2 ^ 14 + 10 * 2 ^ n * 2 ^ 5 + 2 ^ (18 - 2 * n) : ℕ) * 2 ^ (-14 : ℤ) := by
    interval_cases n <;> norm_num
  rw [hsum]
  refine isDouble_of_exponent_le ?_ (by decide) (by decide)
  interval_cases n <;> decide

private theorem value?_twenty : value? 20 = some 20 := value?_literal 20 (by decide)

private theorem twenty_le_growth {m : ℕ} (h : value? d = some (m : ℚ)) (hlow : 10 ≤ m)
    (hhigh : m ≤ 2 ^ 64) : 20 ≤ growth d := by
  obtain hsmall | hlarge := Nat.lt_or_ge m 50
  · rw [value_le_iff value?_twenty (value?_growth h (by omega))]
    have hpow : (2 : ℚ) ^ 10 ≤ 2 ^ m := pow_le_pow_right₀ one_le_two hlow
    have hterm : (0 : ℚ) ≤ m := Nat.cast_nonneg m
    linarith
  obtain hmid | hlarge := Nat.lt_or_ge 1029 m
  · rw [growth_of_gt (k := m) (by exact_mod_cast h) (by omega) (by omega)]
    exact le_infinity (isNaN_of_value? value?_twenty)
  · obtain ⟨j, rfl⟩ := Nat.exists_eq_add_of_le' (show 9 ≤ m by omega)
    obtain ⟨q, hq, hlow, -⟩ := growth_bounds h (by omega) (by omega)
    rw [value_le_iff value?_twenty hq]
    have hpow : (2 : ℚ) ^ 1 ≤ 2 ^ j := pow_le_pow_right₀ one_le_two (by omega)
    linarith

/-- Widths do not rise as levels are used up, down to two levels left. With one level left the pen is
wider than with four, and with none it is wider than with eight. -/
theorem breadth_le_iff {m n : ℕ} (hd : value? d = some (m : ℚ)) (hc : value? c = some (n : ℚ))
    (hle : n ≤ m) (hm : m ≤ 2 ^ 64) :
    breadth c ≤ breadth d ↔ m = n ∨ 2 ≤ n ∨ n = 1 ∧ 5 ≤ m ∨ n = 0 ∧ 9 ≤ m := by
  have hc' : value? c = some ((n : ℤ) : ℚ) := by exact_mod_cast hc
  have hd' : value? d = some ((m : ℤ) : ℚ) := by exact_mod_cast hd
  obtain hn | hn := Nat.lt_or_ge n 2
  · obtain hsmall | hlarge := Nat.lt_or_ge m 10
    · rw [value_le_iff (value?_breadth hc (by omega)) (value?_breadth hd (by omega))]
      interval_cases n <;> interval_cases m <;> norm_num
    · refine iff_of_true ?_ (by omega)
      have htwenty : breadth c ≤ 20 := by
        rw [value_le_iff (value?_breadth hc (by omega)) value?_twenty]
        interval_cases n <;> norm_num
      exact float_le_trans htwenty (float_le_trans (twenty_le_growth hd hlarge hm) (growth_le hd'))
  · refine iff_of_true ?_ (.inr (.inl hn))
    obtain hlt | rfl := hle.lt_or_eq
    · exact breadth_le_of_lt hd hc hn hlt hm
    · obtain rfl := eq_of_value? hc hd (by exact_mod_cast (by omega : n ≠ 0))
      exact float_le_refl (isNaN_of_ge (growth_le hc'))

private theorem exists_growth_of_neg (h : value? d = some (k : ℚ)) (hlow : -2 ^ 64 ≤ k) (hk : k < 0) :
    ∃ q, value? (growth d) = some q ∧ k ≤ q := by
  obtain ⟨i, hi, hround⟩ := exists_sub_int h value?_nine (by rw [abs_le]; omega)
  have hsign : i ≤ 0 := hround.int_le hi (isDouble_int (by decide)) (by omega)
  obtain ⟨a, ha, h0, h10⟩ := exists_ten_mul hsign
  have hneg : (k : ℚ) ≤ 0 := by exact_mod_cast hk.le
  unfold growth
  rw [integerPart_eq hi]
  obtain ⟨q, hq, hkq, -⟩ :=
    (rounds_add h ha).exists_value ⟨d, h⟩ (by linarith) ⟨10, value?_ten⟩ (by linarith)
  exact ⟨q, hq, hkq⟩

private theorem flare_of_lt (h : value? d = some (k : ℚ)) (hlow : -2 ^ 64 ≤ k) (hk : k < -509) :
    flare d = infinity := by
  obtain ⟨j, hj, hround⟩ := exists_sub_int value?_two h (by rw [abs_le]; omega)
  have hlarge : 512 ≤ j := hround.le_int hj (isDouble_int (by decide)) (by omega)
  unfold flare
  rw [integerPart_eq hj, powerOfTwo_of_gt (by omega)]

/-- Beyond the last level the term that falls outweighs the levels that are missing. -/
private theorem zero_lt_breadth_of_neg (h : value? d = some (k : ℚ)) (hlow : -2 ^ 64 ≤ k) (hk : k < 0) :
    0 < breadth d := by
  obtain ⟨q, hq, hkq⟩ := exists_growth_of_neg h hlow hk
  obtain hfar | hnear := lt_or_ge k (-509)
  · have hinfinite : breadth d = infinity := by
      unfold breadth
      rw [flare_of_lt h hlow hfar, add_infinity (neg_infinity_lt_of_value? hq)]
    rw [hinfinite]
    exact zero_lt_infinity
  · obtain ⟨n, hn⟩ := Int.eq_ofNat_of_zero_le (show 0 ≤ -k by omega)
    have hexp : 2 * (2 - k) = ((2 * (2 + n) : ℕ) : ℤ) := by
      push_cast
      omega
    have hpow : n + 1 ≤ 2 ^ (2 * (2 + n)) :=
      n.lt_two_pow_self.trans_le (Nat.pow_le_pow_right (by decide) (by omega))
    have hflare := value?_flare h hnear (by omega)
    rw [hexp, zpow_natCast] at hflare
    have hsum : 1 ≤ q + 2 ^ (2 * (2 + n)) := by
      have hk' : (k : ℚ) = -n := by
        rw [← neg_eq_iff_eq_neg]
        exact_mod_cast hn
      have hpow' : (n : ℚ) + 1 ≤ 2 ^ (2 * (2 + n)) := by exact_mod_cast hpow
      linarith
    have hone : 1 ≤ breadth d := (rounds_add hq hflare).below value?_one hsum
    exact float_lt_of_lt_of_le ((value_lt_iff value?_zero value?_one).mpr one_pos) hone

theorem zero_lt_breadth (h : value? d = some (k : ℚ)) (hk : |k| ≤ 2 ^ 64) : 0 < breadth d := by
  obtain ⟨hlow, hhigh⟩ := abs_le.mp hk
  obtain hneg | rfl | hpos := lt_trichotomy k 0
  · exact zero_lt_breadth_of_neg h hlow hneg
  · rw [value_lt_iff value?_zero (value?_breadth (n := 0) (by exact_mod_cast h) (by decide))]
    norm_num
  · refine float_lt_of_lt_of_le ?_ (float_le_trans (le_growth h) (growth_le h))
    rw [value_lt_iff value?_zero h]
    exact_mod_cast hpos

end Breadths

section Levels
variable {t : Taper} {depth a b : ℕ}

private theorem isDouble_two_pow_64 : IsDouble (((2 : ℤ) ^ 64 : ℤ) : ℚ) := by
  exact_mod_cast isDouble_two_pow (n := 64) (by decide)

/-- A number of levels as a double is an integer, and the number itself unless it is very large. -/
private theorem exists_ofNat {n : ℕ} (h : n ≤ 2 ^ 64) :
    ∃ k : ℤ, value? (Float.ofNat n) = some (k : ℚ) ∧ 0 ≤ k ∧ k ≤ 2 ^ 64 ∧ (n ≤ 2 ^ 53 → k = n) := by
  have hround : Rounds (Float.ofNat n) ((n : ℤ) : ℚ) := by exact_mod_cast rounds_ofNat n
  obtain ⟨k, hk⟩ := hround.exists_int (by rw [abs_le]; omega)
  exact ⟨k, hk, hround.le_int hk (isDouble_int (by decide)) (by omega),
    hround.int_le hk isDouble_two_pow_64 (by omega),
    fun hn => hround.int_eq hk (by rw [abs_le]; omega)⟩

private theorem ofNat_mono {m n : ℕ} {k l : ℤ} (hk : value? (Float.ofNat m) = some (k : ℚ))
    (hl : value? (Float.ofNat n) = some (l : ℚ)) (h : m ≤ n) : k ≤ l := by
  obtain hlt | rfl := h.lt_or_eq
  · exact_mod_cast (rounds_ofNat m).mono (rounds_ofNat n) hk hl (by exact_mod_cast hlt)
  · exact_mod_cast (Option.some.inj (hk.symm.trans hl)).le

/-- What is left is the difference of the levels and the depth, each as a double, rounded to an
integer. -/
private theorem exists_left {l p : ℤ} (hl : value? (Float.ofNat t.levels) = some (l : ℚ))
    (hp : value? (Float.ofNat depth) = some (p : ℚ)) (h : |l - p| ≤ 2 ^ 64) :
    ∃ k : ℤ, value? (t.left depth) = some (k : ℚ) ∧ |k| ≤ 2 ^ 64 ∧
      Rounds (t.left depth) ((l - p : ℤ) : ℚ) ∧ (|l - p| ≤ 2 ^ 53 → k = l - p) := by
  obtain ⟨hlow, hhigh⟩ := abs_le.mp h
  obtain ⟨k, hk, hround⟩ := exists_sub_int hl hp (by rw [abs_le]; omega)
  have hneg : IsDouble ((-2 ^ 64 : ℤ) : ℚ) := by
    rw [Int.cast_neg]
    exact isDouble_two_pow_64.neg
  have hbound : |k| ≤ 2 ^ 64 :=
    abs_le.mpr ⟨hround.le_int hk hneg hlow, hround.int_le hk isDouble_two_pow_64 hhigh⟩
  exact ⟨k, hk, hbound, hround, hround.int_eq hk⟩

/-- Deeper places have no more levels left. -/
private theorem exists_left_of_lt (ht : t.levels < 2 ^ 64) (hab : a < b) (hb : b ≤ t.levels) :
    ∃ m n : ℕ, value? (t.left a) = some (m : ℚ) ∧ value? (t.left b) = some (n : ℚ) ∧ n ≤ m ∧
      m ≤ 2 ^ 64 ∧ (t.levels ≤ 2 ^ 53 → m = t.levels - a ∧ n = t.levels - b) := by
  obtain ⟨l, hl, hl0, hl64, hl'⟩ := exists_ofNat ht.le
  obtain ⟨p, hp, hp0, hp64, hp'⟩ := exists_ofNat (show a ≤ 2 ^ 64 by omega)
  obtain ⟨q, hq, hq0, hq64, hq'⟩ := exists_ofNat (show b ≤ 2 ^ 64 by omega)
  have hpq : p ≤ q := ofNat_mono hp hq hab.le
  have hql : q ≤ l := ofNat_mono hq hl hb
  obtain ⟨m, hm, hm64, hmr, hm'⟩ := exists_left hl hp (by rw [abs_le]; omega)
  obtain ⟨n, hn, -, hnr, hn'⟩ := exists_left hl hq (by rw [abs_le]; omega)
  have hn0 : 0 ≤ n := hnr.le_int hn (isDouble_int (by decide)) (by omega)
  have hnm : n ≤ m := by
    obtain hlt | rfl := hpq.lt_or_eq
    · exact_mod_cast hnr.mono hmr hn hm (by exact_mod_cast (by omega : l - q < l - p))
    · have hone : 1 ≤ p := by
        exact_mod_cast (rounds_ofNat b).le_value hq ⟨1, value?_one⟩ (by exact_mod_cast (by omega : 1 ≤ b))
      have hsame : Float.ofNat a = Float.ofNat b :=
        eq_of_value? hp hq (by exact_mod_cast (by omega : p ≠ 0))
      unfold left at hm hn
      rw [hsame] at hm
      exact_mod_cast (Option.some.inj (hn.symm.trans hm)).le
  lift m to ℕ using hn0.trans hnm
  lift n to ℕ using hn0
  refine ⟨m, n, by exact_mod_cast hm, by exact_mod_cast hn, by exact_mod_cast hnm,
    by exact_mod_cast le_of_abs_le hm64, fun hsmall => ?_⟩
  have := hl' hsmall
  have := hp' (by omega)
  have := hq' (by omega)
  have := hm' (by rw [abs_le]; omega)
  have := hn' (by rw [abs_le]; omega)
  omega

/-- All widths are positive. A deeper place is not thicker than a shallower one exactly when two levels or
more are left at the deeper one, or the shallower one is far enough away from the twigs. The levels
left are those of the tree without the depth, unless they are too many for doubles. -/
theorem falls_iff (t : Taper) (ht : t.levels < 2 ^ 64) :
    (∀ depth < 2 ^ 64, 0 < t.width depth) ∧
      ∀ a b, a < b → b ≤ t.levels →
        ∃ m n : ℕ, value? (t.left a) = some (m : ℚ) ∧ value? (t.left b) = some (n : ℚ) ∧ n ≤ m ∧
          (t.levels ≤ 2 ^ 53 → m = t.levels - a ∧ n = t.levels - b) ∧
          (t.width b ≤ t.width a ↔ m = n ∨ 2 ≤ n ∨ n = 1 ∧ 5 ≤ m ∨ n = 0 ∧ 9 ≤ m) := by
  refine ⟨fun depth hdepth => ?_, fun a b hab hb => ?_⟩
  · obtain ⟨l, hl, hl0, hl64, -⟩ := exists_ofNat ht.le
    obtain ⟨p, hp, hp0, hp64, -⟩ := exists_ofNat hdepth.le
    obtain ⟨k, hk, hbound, -⟩ := exists_left hl hp (by rw [abs_le]; omega)
    rw [width_eq]
    exact zero_lt_breadth hk hbound
  · obtain ⟨m, n, hm, hn, hle, hbound, hexact⟩ := exists_left_of_lt ht hab hb
    refine ⟨m, n, hm, hn, hle, hexact, ?_⟩
    rw [width_eq, width_eq]
    exact breadth_le_iff hm hn hle hbound

theorem falls_iff_nine_levels :
    (⟨9⟩ : Taper).levels < 2 ^ 64 ∧ 0 < (⟨9⟩ : Taper).width 9 ∧
      (⟨9⟩ : Taper).width 7 ≤ (⟨9⟩ : Taper).width 6 := by
  obtain ⟨hpos, hfalls⟩ := falls_iff ⟨9⟩ (by decide)
  refine ⟨by decide, hpos 9 (by decide), ?_⟩
  obtain ⟨m, n, -, -, -, hexact, hiff⟩ := hfalls 6 7 (by decide) (by decide)
  obtain ⟨rfl, rfl⟩ := hexact (by decide)
  exact hiff.mpr (by decide)

/-- With nine levels the pen widens over the last two of them. -/
theorem widens_at_twigs :
    8 < 9 ∧ 9 ≤ (⟨9⟩ : Taper).levels ∧ ¬ (⟨9⟩ : Taper).width 9 ≤ (⟨9⟩ : Taper).width 8 := by
  decide +kernel

end Levels
end Taper
end Lindenmayer
