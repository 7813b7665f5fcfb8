import Lindenmayer.Proofs.Numeric.Whole
import Lindenmayer.Turtle.Decoration

/-! The place of a hue on the six-sided wheel. It lies on one of the six sides, unless the hue is so
little below zero that it is rounded to a whole turn. -/
namespace Lindenmayer
open Float.Model.UnpackedFloat (Sign)

/-- A hue below zero that is rounded to a whole turn when it is brought into one. -/
def IsFullTurn (hue : ℚ) : Prop := -2 ^ (-54 : ℤ) ≤ hue ∧ hue < 0

section Turns
variable {q : ℚ}

/-- The multiples of a place below one leave that place free at least. -/
private theorem le_one_sub_place {t : ℕ} {n : ℤ} (h : n * 2 ^ (-t : ℤ) < (1 : ℚ)) :
    n * 2 ^ (-t : ℤ) ≤ (1 - 2 ^ (-t : ℤ) : ℚ) := by
  have hpos : (0 : ℚ) < 2 ^ t := by positivity
  rw [zpow_neg, zpow_natCast, ← div_eq_mul_inv] at h ⊢
  rw [div_lt_one hpos] at h
  have hle : n ≤ 2 ^ t - 1 := Int.le_sub_one_of_lt (by exact_mod_cast h)
  have hle' : (n : ℚ) ≤ 2 ^ t - 1 := by exact_mod_cast hle
  rw [div_le_iff₀ hpos, sub_mul, inv_mul_cancel₀ hpos.ne', one_mul]
  exact hle'

/-- Below one there is no double closer to it than by a unit of the last place. -/
private theorem IsDouble.le_of_lt_one (h : IsDouble q) (hq : q < 1) : q ≤ 1 - 2 ^ (-53 : ℤ) := by
  obtain hle | hpos := le_or_gt q (1 / 2)
  · exact hle.trans (by norm_num)
  · obtain ⟨n, rfl⟩ := h.exists_multiple (t := -53) (by rw [abs_of_pos] <;> norm_num at hpos ⊢ <;> linarith)
    exact le_one_sub_place (t := 53) hq

private theorem fract_of_neg (hlow : -1 ≤ q) (hneg : q < 0) : Int.fract q = q + 1 := by
  have hfloor : ⌊q⌋ = -1 := by
    rw [Int.floor_eq_iff]
    push_cast
    constructor <;> linarith
  rw [Int.fract, hfloor]
  push_cast
  ring

/-- The other hues stay away from a whole turn by more than half a unit of the last place. -/
private theorem fract_lt (h : IsDouble q) (hq : ¬ IsFullTurn q) : Int.fract q < 1 - 2 ^ (-54 : ℤ) := by
  have hplace : (2 : ℚ) ^ (-54 : ℤ) < 2 ^ (-53 : ℤ) := by norm_num
  obtain hlarge | hsmall := le_or_gt 1 |q|
  · obtain ⟨n, hn⟩ := h.exists_multiple (t := -52) (by norm_num; exact hlarge)
    have hfract : Int.fract q = (n - ⌊q⌋ * 2 ^ 52 : ℤ) * 2 ^ (-52 : ℤ) := by
      rw [Int.fract]
      nth_rewrite 1 [hn]
      push_cast
      norm_num
      ring
    have hlt := Int.fract_lt_one q
    have hplace' : (2 : ℚ) ^ (-53 : ℤ) < 2 ^ (-52 : ℤ) := by norm_num
    rw [hfract] at hlt ⊢
    have hle : _ ≤ (1 - 2 ^ (-52 : ℤ) : ℚ) := le_one_sub_place (t := 52) hlt
    exact hle.trans_lt (by linarith)
  · obtain ⟨hlow, hhigh⟩ := abs_lt.mp hsmall
    obtain hneg | hpos := lt_or_ge q 0
    · have hlt : q < -2 ^ (-54 : ℤ) := not_le.mp fun hle => hq ⟨hle, hneg⟩
      rw [fract_of_neg hlow.le hneg]
      linarith
    · rw [Int.fract_eq_self.mpr ⟨hpos, hhigh⟩]
      exact (h.le_of_lt_one hhigh).trans_lt (by linarith)

variable {hue : Float}

private theorem rounds_turn (h : value? hue = some q) : Rounds (wrap hue 1) (Int.fract q) := by
  simpa using rounds_wrap h value?_one one_ne_zero

/-- A small multiple of a place is a double. -/
private theorem isDouble_of_eq {m : ℕ} {e : ℤ} (h : q = m * 2 ^ e) (hm : m < 2 ^ 53)
    (he : -1074 ≤ e ∧ e ≤ 971) : IsDouble q :=
  h ▸ isDouble_of_exponent_le hm he.1 he.2

private theorem isDouble_below_one : IsDouble (1 - 2 ^ (-53 : ℤ)) :=
  isDouble_of_eq (m := 2 ^ 53 - 1) (e := -53) (by norm_num) (by decide) (by decide)

private theorem IsFullTurn.fract_eq (h : IsFullTurn q) : Int.fract q = q + 1 :=
  fract_of_neg (le_trans (by norm_num) h.1) h.2

private theorem value?_least : value? (-powerOfTwo (-54)) = some (-2 ^ (-54 : ℤ) : ℚ) :=
  value?_neg (value?_powerOfTwo (by decide) (by decide))

/-- The sum is halfway between two doubles, and rounded to the even one. -/
private theorem least_add_one : -powerOfTwo (-54) + 1 = 1 := eq_of_unpack_eq rfl

private theorem wrap_least : wrap (-powerOfTwo (-54)) 1 = 1 := by
  have hrest : remainder (-powerOfTwo (-54)) 1 = -powerOfTwo (-54) := eq_of_unpack_eq rfl
  have hneg : -powerOfTwo (-54) < 0 := rfl
  have habs : (1 : Float).abs = 1 := eq_of_unpack_eq rfl
  simp only [wrap, hrest, if_pos hneg, habs, least_add_one]

/-- In one turn a hue is a whole turn exactly when it was rounded to one. -/
private theorem exists_turn (h : value? hue = some q) :
    ∃ w, value? (wrap hue 1) = some w ∧ 0 ≤ w ∧
      (IsFullTurn q → w = 1) ∧ (¬ IsFullTurn q → w ≤ 1 - 2 ^ (-53 : ℤ)) := by
  have hround := rounds_turn h
  obtain ⟨w, hw, hlow, hhigh⟩ := hround.exists_value ⟨0, value?_zero⟩ (Int.fract_nonneg q)
    ⟨1, value?_one⟩ (Int.fract_lt_one q).le
  refine ⟨w, hw, hlow, fun hfull => ?_, fun hnot => ?_⟩
  · have hleast : IsFullTurn (-2 ^ (-54 : ℤ)) := ⟨le_rfl, by norm_num⟩
    have hturn : value? (wrap (-powerOfTwo (-54)) 1) = some 1 := by rw [wrap_least, value?_one]
    obtain heq | hlt := hfull.1.eq_or_lt
    · obtain rfl := eq_of_value? h (heq ▸ value?_least) hfull.2.ne
      exact Option.some.inj (hw.symm.trans hturn)
    · refine le_antisymm hhigh ((rounds_turn value?_least).mono hround hturn hw ?_)
      rw [hleast.fract_eq, hfull.fract_eq]
      linarith
  · have hplace : (2 : ℚ) ^ (-53 : ℤ) = 2 * 2 ^ (-54 : ℤ) := by norm_num
    have hpos : (0 : ℚ) < 2 ^ (-54 : ℤ) := by positivity
    refine IsDouble.le_of_lt_one ⟨_, hw⟩ (lt_of_le_of_ne hhigh ?_)
    rintro rfl
    have hlt := fract_lt ⟨hue, h⟩ hnot
    obtain ⟨y, hy⟩ := isDouble_below_one
    have hnear := hround.nearest hw hy
    rw [abs_of_pos (by linarith [Int.fract_lt_one q]), le_abs] at hnear
    obtain hnear | hnear := hnear <;> linarith

end Turns

section Sides
variable {hue : Float} {q : ℚ}

private theorem value?_six : value? 6 = some 6 := value?_literal 6 (by decide)

private theorem isDouble_below_six : IsDouble (6 - 2 ^ (-50 : ℤ)) :=
  isDouble_of_eq (m := 6 * 2 ^ 50 - 1) (e := -50) (by norm_num) (by decide) (by decide)

/-- In sixths of a turn a hue is below six, or it was rounded to six. -/
private theorem exists_sixths (h : value? hue = some q) :
    ∃ place, value? (Color.sixths hue) = some place ∧ 0 ≤ place ∧
      (IsFullTurn q → place = 6) ∧ (¬ IsFullTurn q → place < 6) := by
  obtain ⟨w, hw, h0, hfull, hnot⟩ := exists_turn h
  have hround : Rounds (Color.sixths hue) (w * 6) := rounds_mul hw value?_six
  have hle : w ≤ 1 := by
    by_cases hq : IsFullTurn q
    · exact (hfull hq).le
    · exact (hnot hq).trans (by norm_num)
  obtain ⟨place, hp, hlow, hhigh⟩ := hround.exists_value ⟨0, value?_zero⟩ (by linarith)
    ⟨6, value?_six⟩ (by linarith)
  refine ⟨place, hp, hlow, fun hq => ?_, fun hq => lt_of_le_of_ne hhigh ?_⟩
  · rw [hfull hq, one_mul] at hround
    exact Option.some.inj (hp.symm.trans (hround.value?_eq ⟨6, value?_six⟩))
  · have hplace : (2 : ℚ) ^ (-50 : ℤ) = 8 * 2 ^ (-53 : ℤ) := by norm_num
    have hpos : (0 : ℚ) < 2 ^ (-53 : ℤ) := by positivity
    rintro rfl
    obtain ⟨y, hy⟩ := isDouble_below_six
    have hnear := hround.nearest hp hy
    have hw' := hnot hq
    rw [abs_of_nonneg (by linarith), le_abs] at hnear
    obtain hnear | hnear := hnear <;> linarith

end Sides

namespace Color

/-- The color on a side of the wheel, after a part of the way from one corner to the next. -/
def side (k : Fin 6) (part saturation value : Float) : Color :=
  let low := value * (1 - saturation)
  let falling := value * fusedMulAdd saturation (-part) 1
  let rising := value * fusedMulAdd saturation (part - 1) 1
  match k with
  | 0 => clamped value rising low
  | 1 => clamped falling value low
  | 2 => clamped low value rising
  | 3 => clamped low falling value
  | 4 => clamped rising low value
  | 5 => clamped value low falling

variable {hue saturation value : Float} {q : ℚ}

/-- The byte of a small integer is the integer. -/
private theorem toNat_toUInt8 {x : Float} {n : ℕ} (h : value? x = some (n : ℚ)) (hn : n ≤ 6) :
    x.toUInt8.toNat = n := by
  obtain rfl | hpos := Nat.eq_zero_or_pos n
  · obtain ⟨s, hu, -⟩ | ⟨s, m, e, hm, -, hv⟩ := unpack_of_value? h
    · have hbyte : x.toUInt8 = x.toModel.unpack.toUInt8 := rfl
      rw [hbyte, hu]
      rfl
    · have hne : (m : ℚ) * 2 ^ e ≠ 0 := by positivity
      cases s <;> simp_all [Sign.apply]
  · have hdouble : IsDouble (n : ℚ) := isDouble_natCast (by omega)
    obtain rfl : x = Float.ofNat n :=
      eq_of_value? h ((rounds_ofNat n).value?_eq hdouble) (by exact_mod_cast hpos.ne')
    interval_cases n <;> rfl

private theorem ofHue_of_sector (hs : (saturation == 0) = false) {k : Fin 6}
    (hk : (roundDown (sixths hue)).toUInt8.toNat = k ∨
      (roundDown (sixths hue)).toUInt8.toNat = 6 ∧ k = 5) :
    ofHue hue saturation value =
      side k (sixths hue - roundDown (sixths hue)) saturation value := by
  unfold ofHue side
  rw [hs, if_neg Bool.false_ne_true]
  dsimp only
  generalize (roundDown (sixths hue)).toUInt8 = u at hk
  have hu (n : ℕ) (h : u.toNat = n) : u = UInt8.ofNat n := by
    rw [← h, UInt8.ofNat_toNat]
  obtain hk | ⟨hk, rfl⟩ := hk
  · rw [hu _ hk]
    fin_cases k <;> rfl
  · rw [hu _ hk]
    rfl

/-- A hue has the color of the side that its place is on, at the part of the way that is left of it. A
hue that is rounded to a whole turn is given the start of the last side instead of the first one. -/
theorem ofHue_eq_side (h : value? hue = some q) :
    (IsFullTurn q → sixths hue = 6 ∧ ∀ s v, (s == 0) = false → ofHue hue s v = side 5 0 s v) ∧
      (¬ IsFullTurn q → ∃ (place : ℚ) (k : Fin 6), value? (sixths hue) = some place ∧
        0 ≤ place ∧ place < 6 ∧ ⌊place⌋ = k ∧
          ∀ s v, (s == 0) = false →
            ofHue hue s v = side k (sixths hue - roundDown (sixths hue)) s v) := by
  obtain ⟨place, hp, h0, hfull, hnot⟩ := exists_sixths h
  refine ⟨fun hq => ?_, fun hq => ?_⟩
  · obtain rfl := hfull hq
    have hsix : sixths hue = 6 := eq_of_value? hp value?_six (by norm_num)
    have hsector : (roundDown (6 : Float)).toUInt8.toNat = 6 := rfl
    have hpart : (6 : Float) - roundDown 6 = 0 := eq_of_unpack_eq rfl
    refine ⟨hsix, fun s v hs => ?_⟩
    rw [ofHue_of_sector hs (k := 5) (.inr ⟨by rw [hsix, hsector], rfl⟩), hsix, hpart]
  · have hsix := hnot hq
    have hfloor : 0 ≤ ⌊place⌋ ∧ ⌊place⌋ < 6 :=
      ⟨Int.floor_nonneg.mpr h0, Int.floor_lt.mpr (by exact_mod_cast hsix)⟩
    obtain ⟨n, hn⟩ := Int.eq_ofNat_of_zero_le hfloor.1
    have hsector := value?_roundDown hp
    rw [hn] at hsector
    refine ⟨place, ⟨n, by omega⟩, hp, h0, hsix, hn, fun s v hs => ofHue_of_sector hs (.inl ?_)⟩
    exact toNat_toUInt8 (by exact_mod_cast hsector) (by omega)

private theorem value?_quarter : value? 0.25 = some (1 / 4) := by
  have hpower : (0.25 : Float) = powerOfTwo (-2) := eq_of_unpack_eq rfl
  rw [hpower, value?_powerOfTwo (by decide) (by decide)]
  norm_num

private theorem value?_sixths_quarter : value? (sixths 0.25) = some (3 / 2) := by
  have hturn : wrap 0.25 1 = 0.25 := eq_of_unpack_eq rfl
  have hdouble : IsDouble (1 / 4 * 6) :=
    isDouble_of_eq (m := 3) (e := -1) (by norm_num) (by decide) (by decide)
  rw [sixths, hturn, value?_mul value?_quarter value?_six hdouble]
  norm_num

private theorem not_isFullTurn_quarter : ¬ IsFullTurn (1 / 4) := fun h => absurd h.2 (by norm_num)

theorem ofHue_eq_side_least_and_quarter :
    (value? (-powerOfTwo (-54)) = some (-2 ^ (-54 : ℤ) : ℚ) ∧
      ofHue (-powerOfTwo (-54)) 1 1 = side 5 0 1 1) ∧
    value? 0.25 = some (1 / 4 : ℚ) ∧ ofHue 0.25 1 1 = side 1 0.5 1 1 := by
  refine ⟨⟨value?_least, ((ofHue_eq_side value?_least).1 ⟨le_rfl, by norm_num⟩).2 1 1 rfl⟩,
    value?_quarter, ?_⟩
  obtain ⟨place, k, hp, -, -, hk, hside⟩ :=
    (ofHue_eq_side value?_quarter).2 not_isFullTurn_quarter
  obtain rfl : 3 / 2 = place := Option.some.inj (value?_sixths_quarter.symm.trans hp)
  have hfloor : ⌊(3 / 2 : ℚ)⌋ = 1 := by norm_num
  obtain rfl : k = 1 := by
    rw [hfloor] at hk
    omega
  have hpart : sixths 0.25 - roundDown (sixths 0.25) = 0.5 := eq_of_unpack_eq rfl
  rw [hside 1 1 rfl, hpart]

/-- A hue just below zero is magenta, where zero is red. -/
theorem ofHue_just_below_zero :
    value? (sixths (-1e-20)) = some 6 ∧ (ofHue (-1e-20) 1 1 == ⟨1, 0, 1⟩) = true ∧
      (ofHue 0 1 1 == ⟨1, 0, 0⟩) = true := by
  decide +kernel

end Color

namespace ColorWheel

/-- The hues of a wheel are not below zero. -/
theorem not_isFullTurn (w : ColorWheel) (p : Point) {bearing : ℚ}
    (h : value? (Heading.between p w.centre + w.phase) = some bearing) :
    ∃ q, value? (wrap (Heading.between p w.centre + w.phase) 360 / 360) = some q ∧ ¬ IsFullTurn q := by
  have hturn : value? 360 = some 360 := value?_literal 360 (by decide)
  have hfract := Int.fract_nonneg (bearing / |360|)
  have hfract' := Int.fract_lt_one (bearing / |360|)
  obtain ⟨v, hv, hv0, hv360⟩ := (rounds_wrap h hturn (by norm_num)).exists_value ⟨0, value?_zero⟩
    (by positivity) ⟨360, hturn⟩ (by rw [abs_of_pos (by norm_num)] at hfract' ⊢; linarith)
  obtain ⟨q, hq, hq0, -⟩ := (rounds_div hv hturn (by norm_num)).exists_value ⟨0, value?_zero⟩
    (by positivity) ⟨1, value?_one⟩ (by rwa [div_le_one (by norm_num)])
  exact ⟨q, hq, fun hfull => hfull.2.not_ge hq0⟩

end ColorWheel
end Lindenmayer
