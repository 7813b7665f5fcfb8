import Lindenmayer.Proofs.Numeric.Decimal
import Lindenmayer.Proofs.Numeric.Value
import Lindenmayer.Svg.Text

/-! The numbers of an image. A number is written as the canonical numeral of its value, rounded to the
places at hand, and so texts differ exactly where rounded values do. -/
namespace Lindenmayer

namespace Svg

/-- A decimal numeral by its parts: whether it has a minus sign, and its digits before and after the
point. -/
structure Numeral where
  negative : Bool
  whole : List Char
  fraction : List Char
  deriving DecidableEq

namespace Numeral

/-- The parts of a text, which is cut behind a sign and at its first point. -/
def read (s : List Char) : Numeral :=
  let negative := s.head? == some '-'
  let rest := if negative then s.tail else s
  ⟨negative, rest.takeWhile (· != '.'), (rest.dropWhile (· != '.')).tail⟩

/-- The text of a numeral, which has a point only where digits follow. -/
def text (d : Numeral) : List Char :=
  (if d.negative then ['-'] else []) ++ d.whole ++
    if d.fraction = [] then [] else '.' :: d.fraction

/-- The number that a numeral denotes. -/
def value (d : Numeral) : ℚ :=
  (if d.negative then -1 else 1) *
    (Nat.ofDigitChars 10 d.whole 0 + Nat.ofDigitChars 10 d.fraction 0 / 10 ^ d.fraction.length)

/-- A numeral that could not be shorter. It has a digit before the point, no zero in front of other
digits there, none at its end behind the point, and no sign at zero. -/
structure IsCanonical (d : Numeral) : Prop where
  whole_ne_nil : d.whole ≠ []
  digits : ∀ c ∈ d.whole ++ d.fraction, c.isDigit
  leading : d.whole.head? = some '0' → d.whole = ['0']
  trailing : d.fraction.getLast? ≠ some '0'
  sign : d.negative → d.value ≠ 0

/-- The numeral for a number of units of the last of some places, with a sign given. -/
def ofParts (negative : Bool) (n places : ℕ) : Numeral :=
  ⟨negative, Nat.toDigits 10 (n / 10 ^ places),
    (Decimal.digits (n % 10 ^ places) places).toList.rdropWhile (· == '0')⟩

/-- The numeral for a number of units of the last of some places. -/
def ofUnits (n : ℤ) (places : ℕ) : Numeral := ofParts (n < 0) n.natAbs places

theorem ne_of_isDigit {c d : Char} (hc : c.isDigit) (hd : d.isDigit = false) : c ≠ d :=
  fun h => Bool.false_ne_true (hd.symm.trans (h ▸ hc))

/-- Digits are found again in a text. -/
theorem read_text {d : Numeral} (hwhole : d.whole ≠ []) (hdigits : ∀ c ∈ d.whole, c.isDigit) :
    read d.text = d := by
  obtain ⟨negative, whole, fraction⟩ := d
  have hpoint : ∀ c ∈ whole, (c != '.') = true :=
    fun c hc => bne_iff_ne.mpr (ne_of_isDigit (hdigits c hc) (by decide))
  have htail : ∀ f : List Char, (if f = [] then [] else '.' :: f).takeWhile (· != '.') = [] ∧
      ((if f = [] then [] else '.' :: f).dropWhile (· != '.')).tail = f := by
    rintro (_ | ⟨c, f⟩) <;> simp
  have hhead : (whole ++ if fraction = [] then [] else '.' :: fraction).head? ≠ some '-' := by
    obtain ⟨c, w, rfl⟩ := List.exists_cons_of_ne_nil hwhole
    have hc := ne_of_isDigit (hdigits c List.mem_cons_self) (by decide : '-'.isDigit = false)
    simpa using hc
  have hrest : (whole ++ if fraction = [] then [] else '.' :: fraction).takeWhile (· != '.') = whole ∧
      ((whole ++ if fraction = [] then [] else '.' :: fraction).dropWhile (· != '.')).tail = fraction := by
    rw [List.takeWhile_append_of_pos hpoint, List.dropWhile_append_of_pos hpoint, (htail fraction).1,
      List.append_nil]
    exact ⟨rfl, (htail fraction).2⟩
  cases negative with
  | true => simp [read, text, hrest.1, hrest.2]
  | false =>
    simp only [read, text, Bool.false_eq_true, if_false, List.nil_append, beq_eq_false_iff_ne.mpr hhead,
      hrest.1, hrest.2]

/-! ### Zeros at the end -/

/-- Zeros at the end of a fraction do not count. -/
theorem ofDigitChars_trim (l : List Char) :
    (Nat.ofDigitChars 10 (l.rdropWhile (· == '0')) 0 : ℚ) / 10 ^ (l.rdropWhile (· == '0')).length =
      Nat.ofDigitChars 10 l 0 / 10 ^ l.length := by
  induction l using List.reverseRecOn with
  | nil => rfl
  | append_singleton l c ih =>
    by_cases hc : c = '0'
    · subst hc
      rw [List.rdropWhile_concat_pos _ _ _ rfl, ih, Nat.ofDigitChars_append, List.length_append]
      have hten : (Nat.ofDigitChars 10 ['0'] (Nat.ofDigitChars 10 l 0) : ℚ) =
          10 * Nat.ofDigitChars 10 l 0 := by
        rw [Nat.ofDigitChars_cons, Nat.ofDigitChars_nil]
        push_cast
        ring
      rw [hten, List.length_singleton, pow_succ']
      exact (mul_div_mul_left _ _ (by norm_num)).symm
    · rw [List.rdropWhile_concat_neg _ _ _ (by simpa using hc)]

/-- Trimming takes zeros behind the point, and the point when nothing else is there. -/
theorem trimZeros_point (l : List Char) {f : List Char} (hf : ∀ c ∈ f, c.isDigit) :
    trimZeros (l ++ '.' :: f) =
      l ++ if f.rdropWhile (· == '0') = [] then [] else '.' :: f.rdropWhile (· == '0') := by
  have hcut : (l ++ '.' :: f).reverse.dropWhile (· == '0') =
      f.reverse.dropWhile (· == '0') ++ '.' :: l.reverse := by
    rw [List.reverse_append, List.reverse_cons, List.append_assoc, List.singleton_append,
      List.dropWhile_append]
    split
    case isTrue h => rw [List.isEmpty_iff.mp h]; rfl
    case isFalse => rfl
  by_cases hnil : f.reverse.dropWhile (· == '0') = []
  · rw [trimZeros, hcut]
    simp [hnil, List.rdropWhile]
  · obtain ⟨c, g, hrest⟩ := List.exists_cons_of_ne_nil hnil
    have hmem : c ∈ f.reverse :=
      (List.dropWhile_sublist _).subset (hrest ▸ List.mem_cons_self)
    have hc : c ≠ '.' := ne_of_isDigit (hf c (List.mem_reverse.mp hmem)) (by decide)
    rw [trimZeros, hcut]
    simp [hrest, List.rdropWhile, hc]

/-! ### The numeral for a number of units -/

theorem whole_ofParts (negative : Bool) (n places : ℕ) :
    (ofParts negative n places).whole = Nat.toDigits 10 (n / 10 ^ places) := by
  simp only [ofParts]

theorem fraction_ofParts (negative : Bool) (n places : ℕ) :
    (ofParts negative n places).fraction =
      (Decimal.digits (n % 10 ^ places) places).toList.rdropWhile (· == '0') := by
  simp only [ofParts]

theorem whole_ofParts_ne_nil (negative : Bool) (n places : ℕ) :
    (ofParts negative n places).whole ≠ [] := by
  rw [whole_ofParts]
  exact Nat.toDigits_ne_nil

theorem isDigit_ofParts (negative : Bool) (n places : ℕ) :
    ∀ c ∈ (ofParts negative n places).whole ++ (ofParts negative n places).fraction, c.isDigit := by
  rw [whole_ofParts, fraction_ofParts]
  refine List.forall_mem_append.mpr ⟨fun c hc => ?_, fun c hc => ?_⟩
  · exact Nat.isDigit_of_mem_toDigits (by decide) (by decide) hc
  · exact Decimal.isDigit_of_mem_digits c ((List.rdropWhile_prefix _ _).subset hc)

theorem read_ofParts (negative : Bool) (n places : ℕ) :
    read (ofParts negative n places).text = ofParts negative n places :=
  read_text (whole_ofParts_ne_nil negative n places)
    fun c hc => isDigit_ofParts negative n places c (List.mem_append_left _ hc)

theorem read_ofUnits (n : ℤ) (places : ℕ) : read (ofUnits n places).text = ofUnits n places :=
  read_ofParts ..

theorem value_ofParts (negative : Bool) (n places : ℕ) :
    (ofParts negative n places).value = (if negative then -1 else 1) * (n / 10 ^ places : ℚ) := by
  have hpow : (10 : ℚ) ^ places ≠ 0 := by positivity
  have hfraction : (Nat.ofDigitChars 10 (Decimal.digits (n % 10 ^ places) places).toList 0 : ℚ) /
      10 ^ (Decimal.digits (n % 10 ^ places) places).toList.length =
        (n % 10 ^ places : ℕ) / 10 ^ places := by
    rw [Decimal.ofDigitChars_digits]
    obtain rfl | hplaces := Nat.eq_zero_or_pos places
    · simp [Nat.mod_one]
    · rw [Decimal.length_digits hplaces (Nat.mod_lt _ (by positivity))]
  have hwhole : (n : ℚ) / 10 ^ places = (n / 10 ^ places : ℕ) + (n % 10 ^ places : ℕ) / 10 ^ places := by
    rw [div_eq_iff hpow, add_mul, div_mul_cancel₀ _ hpow]
    exact_mod_cast (Nat.div_add_mod' n (10 ^ places)).symm
  change (if negative then -1 else 1) * _ = _
  rw [whole_ofParts, fraction_ofParts, ofDigitChars_trim, hfraction, Nat.ofDigitChars_ten_toDigits,
    hwhole]

theorem value_ofUnits (n : ℤ) (places : ℕ) : (ofUnits n places).value = n / 10 ^ places := by
  rw [ofUnits, value_ofParts]
  obtain hn | hn := lt_or_ge n 0
  · rw [if_pos (decide_eq_true hn), Nat.cast_natAbs, abs_of_neg hn]
    push_cast
    ring
  · rw [if_neg (by simpa using hn), Nat.cast_natAbs, abs_of_nonneg hn, one_mul]

theorem isCanonical_ofUnits (n : ℤ) (places : ℕ) : (ofUnits n places).IsCanonical where
  whole_ne_nil := whole_ofParts_ne_nil _ _ _
  digits := isDigit_ofParts _ _ _
  leading h := by
    rw [ofUnits, whole_ofParts] at h ⊢
    exact Decimal.toDigits_of_head h
  trailing h := by
    rw [ofUnits, fraction_ofParts] at h
    obtain ⟨hne, hlast⟩ := List.mem_getLast?_eq_getLast h
    exact List.rdropWhile_last_not _ _ hne (by rw [← hlast]; rfl)
  sign h := by
    have hn : (n : ℚ) ≠ 0 := Int.cast_ne_zero.mpr (of_decide_eq_true h).ne
    rw [value_ofUnits]
    positivity

private theorem trim_digits_zero (places : ℕ) :
    (Decimal.digits 0 places).toList.rdropWhile (· == '0') = [] := by
  rw [List.rdropWhile_eq_nil_iff, Decimal.toList_digits, Nat.toDigits_zero]
  refine List.forall_mem_append.mpr ⟨fun c hc => ?_, fun c hc => ?_⟩
  · rw [List.eq_of_mem_replicate hc]
    rfl
  · rw [List.mem_singleton.mp hc]
    rfl

private theorem ofParts_zero (negative : Bool) (places : ℕ) :
    ofParts negative 0 places = ⟨negative, ['0'], []⟩ := by
  rw [ofParts, Nat.zero_div, Nat.zero_mod, trim_digits_zero, Nat.toDigits_zero]

/-- A zero with a sign is only written for nothing. -/
theorem text_ofParts_eq_iff (negative : Bool) (n places : ℕ) :
    (ofParts negative n places).text = ['-', '0'] ↔ negative = true ∧ n = 0 := by
  constructor
  · intro h
    have hparts : ofParts negative n places = ⟨true, ['0'], []⟩ := by
      rw [← read_ofParts, h]
      rfl
    have hvalue := congrArg value hparts
    have hzero : value ⟨true, ['0'], []⟩ = 0 := by decide +kernel
    have hnegative : negative = true := congrArg Numeral.negative hparts
    rw [value_ofParts, hzero, if_pos hnegative] at hvalue
    refine ⟨hnegative, ?_⟩
    simpa using hvalue
  · rintro ⟨rfl, rfl⟩
    rw [ofParts_zero]
    rfl

/-- A number of units with a sign is written as it is, but for a zero with one. -/
theorem text_ofUnits (negative : Bool) (n places : ℕ) :
    (if (ofParts negative n places).text = ['-', '0'] then ['0'] else (ofParts negative n places).text) =
      (ofUnits (if negative then -n else n) places).text := by
  by_cases h : negative = true ∧ n = 0
  · obtain ⟨rfl, rfl⟩ := h
    rw [if_pos ((text_ofParts_eq_iff true 0 places).mpr ⟨rfl, rfl⟩), if_pos rfl, ofUnits,
      Nat.cast_zero, neg_zero, Int.natAbs_zero, ofParts_zero]
    rfl
  · rw [if_neg (mt (text_ofParts_eq_iff negative n places).mp h), ofUnits]
    have hsign : decide ((if negative then -n else n : ℤ) < 0) = negative := by
      cases negative with
      | false => simp
      | true =>
        have : n ≠ 0 := fun h0 => h ⟨rfl, h0⟩
        simp only [if_true, decide_eq_true_eq]
        omega
    have habs : (if negative then -n else n : ℤ).natAbs = n := by cases negative <;> simp
    rw [hsign, habs]

end Numeral

open Numeral

/-- A number with all its places is trimmed to the digits that count. -/
private theorem trim_pointed (negative : Bool) (n places : ℕ) :
    let s := (if negative then ['-'] else []) ++ (Decimal.pointed n places).toList
    (if s.contains '.' then trimZeros s else s) = (ofParts negative n places).text := by
  intro s
  have hs : s = (if negative then ['-'] else []) ++ (Decimal.pointed n places).toList := rfl
  rw [Decimal.toList_pointed] at hs
  rw [text, whole_ofParts, fraction_ofParts]
  by_cases hplaces : places = 0
  · -- Without a point nothing is trimmed, so that zeros before it stay.
    subst hplaces
    have hpoint : ¬ s.contains '.' = true := by
      rw [List.contains_iff_mem, hs, if_pos rfl, List.mem_append]
      rintro (hsign | hdigit)
      · cases negative <;> simp at hsign
      · have hdot := Nat.isDigit_of_mem_toDigits (by decide) (by decide) hdigit
        exact absurd hdot (by decide)
    rw [if_neg hpoint, hs, if_pos rfl, pow_zero, Nat.div_one, Nat.mod_one,
      trim_digits_zero, if_pos rfl, List.append_nil]
    rfl
  · rw [if_neg hplaces, ← List.append_assoc] at hs
    rw [hs, if_pos (by simp), trimZeros_point _ Decimal.isDigit_of_mem_digits]
    rfl

/-- A number is written as the numeral of its value, in units of the last place. -/
theorem exists_number_eq (places : ℕ) {x : Float} {q : ℚ} (h : value? x = some q) :
    ∃ n : ℤ, IsNearest (q * 10 ^ places) n ∧
      (number places x).toList = (ofUnits n places).text := by
  obtain ⟨b, hb, hq⟩ := Option.map_eq_some_iff.mp h
  let n := Binary.nearest .toEven ⟨false, b.significand * Nat.pow 10 places, b.exponent⟩
  have hfixed : (Decimal.fixed places x).toList =
      (if b.negative then ['-'] else []) ++ (Decimal.pointed n places).toList := by
    simp only [Decimal.fixed, Decimal.write, hb, String.toList_append]
    cases b.negative <;> rfl
  refine ⟨if b.negative then -n else n, ?_, ?_⟩
  · have hnearest : IsNearest (b.significand * 2 ^ b.exponent * 10 ^ places) n := by
      have hscaled := Binary.isNearest_nearest false (b.significand * Nat.pow 10 places) b.exponent
      rw [Nat.pow_eq] at hscaled
      push_cast at hscaled
      rwa [mul_right_comm] at hscaled
    rw [← hq, Binary.value]
    cases b.negative with
    | false => simpa using hnearest
    | true => simpa using hnearest.neg
  · rw [number, hfixed, String.toList_ofList, ← text_ofUnits]
    have htrim := trim_pointed b.negative n places
    simp only at htrim ⊢
    rw [htrim]

/-- A number is written in the one canonical way. For each finite double and any number of places, the
text is that of a canonical numeral for the value rounded to these places, a half to the even
neighbour. Two of them have the same text exactly when they are rounded to the same number. -/
theorem number_canonical (places : ℕ) {x : Float} {q : ℚ} (h : value? x = some q) :
    let s := (number places x).toList
    ∃ n : ℤ, IsNearest (q * 10 ^ places) n ∧
      (read s).value = n / 10 ^ places ∧ (read s).IsCanonical ∧ (read s).text = s ∧
      ∀ y r, value? y = some r →
        (number places x = number places y ↔ IsNearest (r * 10 ^ places) n) := by
  intro s
  obtain ⟨n, hn, hs⟩ := exists_number_eq places h
  have hread : read s = ofUnits n places :=
    (congrArg read hs).trans (read_ofUnits n places)
  refine ⟨n, hn, ?_, ?_, ?_, fun y r hr => ?_⟩
  · rw [hread, value_ofUnits]
  · rw [hread]
    exact isCanonical_ofUnits n places
  · rw [hread]
    exact hs.symm
  obtain ⟨m, hm, ht⟩ := exists_number_eq places hr
  constructor
  · intro hsame
    have hunits : ofUnits n places = ofUnits m places :=
      calc ofUnits n places
        _ = read (number places x).toList := hread.symm
        _ = read (number places y).toList := by rw [hsame]
        _ = ofUnits m places := (congrArg read ht).trans (read_ofUnits m places)
    have hvalue : (n : ℚ) / 10 ^ places = m / 10 ^ places := by
      rw [← value_ofUnits, hunits, value_ofUnits]
    have hpow : (10 : ℚ) ^ places ≠ 0 := by positivity
    obtain rfl : n = m := by exact_mod_cast (div_left_inj' hpow).mp hvalue
    exact hm
  · intro hr
    obtain rfl := hr.unique hm
    exact String.toList_inj.mp (hs.trans ht.symm)

/-- Halfway between two decimals, and next to it. -/
theorem number_canonical_tie :
    let s := (number 2 (-0.125)).toList
    value? (-0.125) = some (-1 / 8) ∧ IsNearest (-1 / 8 * 10 ^ 2) (-12) ∧
      (read s).value = -12 / 10 ^ 2 ∧ (read s).IsCanonical ∧ (read s).text = s ∧
      value? (-0.1171875) = some (-15 / 128) ∧ number 2 (-0.125) = number 2 (-0.1171875) := by
  intro s
  have hx : value? (-0.125) = some (-1 / 8) := by decide +kernel
  have hy : value? (-0.1171875) = some (-15 / 128) := by decide +kernel
  have htie : IsNearest (-1 / 8 * 10 ^ 2) (-12) := .inr ⟨by norm_num [abs_of_neg], by decide⟩
  have hnext : IsNearest (-15 / 128 * 10 ^ 2) (-12) := .inl (by norm_num [abs_of_pos])
  obtain ⟨n, hn, hvalue, hcanonical, htext, hsame⟩ := number_canonical 2 hx
  obtain rfl := hn.unique htie
  refine ⟨hx, htie, ?_, hcanonical, htext, hy, (hsame _ _ hy).mpr hnext⟩
  rw [hvalue]
  norm_num

end Svg
end Lindenmayer
