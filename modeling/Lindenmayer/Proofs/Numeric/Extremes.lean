import Lindenmayer.Numeric.Arithmetic
import Lindenmayer.Proofs.Numeric.Sums

/-! The least and the greatest of many doubles, kept by comparing two at a time. What is kept is one of
the doubles themselves, the first of equal ones. -/
namespace Lindenmayer
open Float.Model (UnpackedFloat)

section Pick
variable {α β : Type*} [LinearOrder β] {key : α → β} {pick : α → α → α}
  (hpick : ∀ x y, pick x y = if key y < key x then y else x)
include hpick

private theorem pick_assoc : Std.Associative pick := by
  refine ⟨fun x y z => ?_⟩
  simp only [hpick]
  grind

private theorem foldl_mem_argmin (x : α) (l : List α) : l.foldl pick x ∈ (x :: l).argmin key := by
  induction l using List.reverseRecOn with
  | nil => exact List.argmin_singleton
  | append_singleton l y ih =>
    rw [← List.cons_append, List.argmin_concat, Option.mem_def.mp ih, List.foldl_append]
    simp only [List.foldl_cons, List.foldl_nil, hpick, Option.mem_def]
    split <;> rfl

end Pick

/-- The place of a double when the least is looked for. What is not a number comes last. -/
private def ascending (x : Float) : ℤ ×ₗ ℤ ×ₗ ℤ := rank x.toModel.unpack

/-- The place of a double when the greatest is looked for. What is not a number comes last. -/
private def descending (x : Float) : (ℤ ×ₗ ℤ ×ₗ ℤ)ᵒᵈ :=
  .toDual (if x.isNaN then toLex (-3, toLex (0, 0)) else rank x.toModel.unpack)

private theorem rank_bounds {u : UnpackedFloat} (h : u ≠ .notANumber) :
    toLex (-3, toLex (0, 0)) < rank u ∧ rank u < rank .notANumber := by
  rcases u with (_ | _) | _ | _ | ⟨_ | _, m, e, hm⟩ <;>
    first | exact absurd rfl h | simp [rank, Prod.Lex.toLex_lt_toLex]

variable {x y : Float}

private theorem eq_of_isNaN (hx : x.isNaN = true) (hy : y.isNaN = true) : x = y :=
  eq_of_unpack_eq (((isNaN_iff x).mp hx).trans ((isNaN_iff y).mp hy).symm)

private theorem unpack_ne (h : x.isNaN = false) : x.toModel.unpack ≠ .notANumber :=
  mt (isNaN_iff x).mpr (Bool.eq_false_iff.mp h)

private theorem lesser_eq (x y : Float) :
    lesser x y = if ascending y < ascending x then y else x := by
  unfold lesser ascending
  cases hx : x.isNaN with
  | true =>
    rw [if_pos rfl, (isNaN_iff x).mp hx]
    cases hy : y.isNaN with
    | true => rw [eq_of_isNaN hx hy, ite_self]
    | false => rw [if_pos (rank_bounds (unpack_ne hy)).2]
  | false =>
    rw [if_neg Bool.false_ne_true]
    cases hy : y.isNaN with
    | true =>
      have hle := (rank_bounds (unpack_ne hx)).2.not_gt
      rw [← (isNaN_iff y).mp hy] at hle
      rw [if_neg hle, if_neg fun h => hle (float_lt_iff.mp h).2.2]
    | false => simp only [float_lt_iff, unpack_ne hx, unpack_ne hy, ne_eq, not_false_eq_true, true_and]

private theorem greater_eq (x y : Float) :
    greater x y = if descending y < descending x then y else x := by
  simp only [greater, descending, OrderDual.toDual_lt_toDual]
  cases hx : x.isNaN with
  | true =>
    rw [if_pos rfl, if_pos rfl]
    cases hy : y.isNaN with
    | true => rw [eq_of_isNaN hx hy, ite_self]
    | false => rw [if_neg Bool.false_ne_true, if_pos (rank_bounds (unpack_ne hy)).1]
  | false =>
    rw [if_neg Bool.false_ne_true, if_neg Bool.false_ne_true]
    cases hy : y.isNaN with
    | true =>
      rw [if_pos rfl, if_neg (rank_bounds (unpack_ne hx)).1.not_gt,
        if_neg fun h => (float_lt_iff.mp h).2.1 ((isNaN_iff y).mp hy)]
    | false =>
      simp only [float_lt_iff, unpack_ne hx, unpack_ne hy, ne_eq, not_false_eq_true, true_and,
        Bool.false_eq_true, if_false]

instance associative_lesser : Std.Associative lesser := pick_assoc lesser_eq

instance associative_greater : Std.Associative greater := pick_assoc greater_eq

theorem lesser_infinity (h : x.isNaN = false) : lesser infinity x = x := by
  have hnan := isNaN_of_ge (float_le_of_lt zero_lt_infinity)
  rw [lesser, hnan, if_neg Bool.false_ne_true]
  obtain rfl | rfl | ⟨p, hp⟩ := infinite_or_value? h
  · exact ite_self _
  · rw [if_pos neg_infinity_lt_infinity]
  · rw [if_pos (lt_infinity_of_value? hp)]

theorem greater_neg_infinity (h : x.isNaN = false) : greater (-infinity) x = x := by
  have hnan := isNaN_of_le (float_le_of_lt neg_infinity_lt_zero)
  rw [greater, hnan, if_neg Bool.false_ne_true]
  obtain rfl | rfl | ⟨p, hp⟩ := infinite_or_value? h
  · rw [if_pos neg_infinity_lt_infinity]
  · exact ite_self _
  · rw [if_pos (neg_infinity_lt_of_value? hp)]

variable {l : List Float} (h : ∀ y ∈ x :: l, y.isNaN = false)
include h

theorem isLeast_foldl_lesser : IsLeast {y | y ∈ x :: l} (l.foldl lesser x) := by
  have hmin := foldl_mem_argmin lesser_eq x l
  have hmem := List.argmin_mem hmin
  refine ⟨hmem, fun y hy => ?_⟩
  have hle : ascending (l.foldl lesser x) ≤ ascending y := List.le_of_mem_argmin hy hmin
  exact float_le_iff.mpr ⟨unpack_ne (h _ hmem), unpack_ne (h y hy), hle⟩

theorem isGreatest_foldl_greater : IsGreatest {y | y ∈ x :: l} (l.foldl greater x) := by
  have hmax := foldl_mem_argmin greater_eq x l
  have hmem := List.argmin_mem hmax
  refine ⟨hmem, fun y hy => ?_⟩
  have hle : descending (l.foldl greater x) ≤ descending y := List.le_of_mem_argmin hy hmax
  simp only [descending, OrderDual.toDual_le_toDual, h _ hmem, h y hy, Bool.false_eq_true,
    if_false] at hle
  exact float_le_iff.mpr ⟨unpack_ne (h y hy), unpack_ne (h _ hmem), hle⟩

end Lindenmayer
