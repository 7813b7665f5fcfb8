import Lindenmayer.Proofs.Numeric.Equality
import Mathlib

/-! The order of doubles: that of the numbers they stand for, and nothing is above or below what is
not a number. -/
namespace Lindenmayer
open Float.Model (UnpackedFloat)
open Float.Model.UnpackedFloat (Sign)

/-- The place of a number in the order, by sign, exponent and mantissa. What is not a number has
none that counts. -/
def rank : UnpackedFloat → ℤ ×ₗ ℤ ×ₗ ℤ
  | .infinity .negative => toLex (-2, toLex (0, 0))
  | .finite .negative m e _ => toLex (-1, toLex (-e, -m))
  | .zero _ => toLex (0, toLex (0, 0))
  | .finite .positive m e _ => toLex (1, toLex (e, m))
  | .infinity .positive => toLex (2, toLex (0, 0))
  | .notANumber => toLex (3, toLex (0, 0))

private theorem compare_sign (s t : Sign) :
    compare s t = match s, t with
      | .negative, .positive => .lt
      | .positive, .negative => .gt
      | _, _ => .eq := by
  cases s <;> cases t <;> rfl

private theorem le_iff_rank (u v : UnpackedFloat) :
    u.le v = true ↔ u ≠ .notANumber ∧ v ≠ .notANumber ∧ rank u ≤ rank v := by
  rcases u with (_ | _) | _ | _ | ⟨_ | _, m, e, hm⟩ <;>
    rcases v with (_ | _) | _ | _ | ⟨_ | _, n, f, hn⟩ <;>
    first
    | exact ⟨nofun, fun h => absurd rfl h.1⟩
    | exact ⟨nofun, fun h => absurd rfl h.2.1⟩
    | refine .trans ?_ ((and_iff_right nofun).trans (and_iff_right nofun)).symm
      dsimp only [UnpackedFloat.le, UnpackedFloat.compare, rank]
      simp [compare_sign, Prod.Lex.toLex_le_toLex, Ordering.isLE_then_iff_or, Ordering.swap_then,
        Int.compare_eq_lt, Int.compare_eq_gt, Nat.isLE_compare, Nat.isGE_compare]

private theorem lt_iff_rank (u v : UnpackedFloat) :
    u.lt v = true ↔ u ≠ .notANumber ∧ v ≠ .notANumber ∧ rank u < rank v := by
  rcases u with (_ | _) | _ | _ | ⟨_ | _, m, e, hm⟩ <;>
    rcases v with (_ | _) | _ | _ | ⟨_ | _, n, f, hn⟩ <;>
    first
    | exact ⟨nofun, fun h => absurd rfl h.1⟩
    | exact ⟨nofun, fun h => absurd rfl h.2.1⟩
    | refine .trans ?_ ((and_iff_right nofun).trans (and_iff_right nofun)).symm
      dsimp only [UnpackedFloat.lt, UnpackedFloat.compare, rank]
      simp [compare_sign, Prod.Lex.toLex_lt_toLex, Ordering.then_eq_lt, Ordering.swap_then,
        Int.compare_eq_lt, Int.compare_eq_gt, Nat.compare_eq_lt, Nat.compare_eq_gt]

variable {x y z : Float}

theorem float_le_iff :
    x ≤ y ↔ x.toModel.unpack ≠ .notANumber ∧ y.toModel.unpack ≠ .notANumber ∧
      rank x.toModel.unpack ≤ rank y.toModel.unpack :=
  decide_eq_true_iff.trans (le_iff_rank x.toModel.unpack y.toModel.unpack)

theorem float_lt_iff :
    x < y ↔ x.toModel.unpack ≠ .notANumber ∧ y.toModel.unpack ≠ .notANumber ∧
      rank x.toModel.unpack < rank y.toModel.unpack :=
  decide_eq_true_iff.trans (lt_iff_rank x.toModel.unpack y.toModel.unpack)

theorem isNaN_of_le (h : x ≤ y) : x.isNaN = false :=
  Bool.eq_false_iff.mpr fun hn => (float_le_iff.mp h).1 ((isNaN_iff x).mp hn)

theorem isNaN_of_ge (h : x ≤ y) : y.isNaN = false :=
  Bool.eq_false_iff.mpr fun hn => (float_le_iff.mp h).2.1 ((isNaN_iff y).mp hn)

theorem float_lt_irrefl (x : Float) : ¬ x < x := fun h => (float_lt_iff.mp h).2.2.false

theorem float_le_refl (h : x.isNaN = false) : x ≤ x := by
  have hn := mt (isNaN_iff x).mpr (Bool.eq_false_iff.mp h)
  exact float_le_iff.mpr ⟨hn, hn, le_rfl⟩

theorem float_le_of_lt (h : x < y) : x ≤ y := by
  obtain ⟨hx, hy, hr⟩ := float_lt_iff.mp h
  exact float_le_iff.mpr ⟨hx, hy, hr.le⟩

theorem float_le_trans (h : x ≤ y) (k : y ≤ z) : x ≤ z := by
  obtain ⟨hx, _, hr⟩ := float_le_iff.mp h
  obtain ⟨_, hz, hs⟩ := float_le_iff.mp k
  exact float_le_iff.mpr ⟨hx, hz, hr.trans hs⟩

theorem float_lt_of_lt_of_le (h : x < y) (k : y ≤ z) : x < z := by
  obtain ⟨hx, _, hr⟩ := float_lt_iff.mp h
  obtain ⟨_, hz, hs⟩ := float_le_iff.mp k
  exact float_lt_iff.mpr ⟨hx, hz, hr.trans_le hs⟩

/-- Only the zeros share a place. -/
theorem rank_eq_iff {u v : UnpackedFloat} : rank u = rank v ↔ unsignedZero u = unsignedZero v := by
  rcases u with (_ | _) | _ | _ | ⟨_ | _, m, e, hm⟩ <;>
    rcases v with (_ | _) | _ | _ | ⟨_ | _, n, f, hn⟩ <;> simp [rank, unsignedZero, and_comm]

theorem beq_iff_le : (x == y) = true ↔ x ≤ y ∧ y ≤ x := by
  rw [beq_iff, ← rank_eq_iff, float_le_iff, float_le_iff, le_antisymm_iff]
  constructor
  · rintro ⟨⟨hle, hge⟩, hx⟩
    have hy : y.toModel.unpack ≠ .notANumber := by
      intro hy
      have hzero := rank_eq_iff.mp (le_antisymm hle hge)
      exact hx ((unsignedZero_eq_notANumber _).mp (hzero.trans (by rw [hy]; rfl)))
    exact ⟨⟨hx, hy, hle⟩, hy, hx, hge⟩
  · rintro ⟨⟨hx, -, hle⟩, -, -, hge⟩
    exact ⟨⟨hle, hge⟩, hx⟩

/-- The numbers above zero, with positive infinity among them. -/
theorem zero_lt_iff :
    0 < x ↔ x.toModel.unpack = .infinity .positive ∨
      ∃ m e hm, x.toModel.unpack = .finite .positive m e hm := by
  have hz : (0 : Float).toModel.unpack = .zero .positive := rfl
  rw [float_lt_iff, hz]
  rcases x.toModel.unpack with (_ | _) | _ | _ | ⟨_ | _, m, e, hm⟩
  case infinity.positive => exact ⟨fun _ => .inl rfl, fun _ => ⟨nofun, nofun, by decide⟩⟩
  case finite.positive =>
    refine ⟨fun _ => .inr ⟨m, e, hm, rfl⟩, fun _ => ⟨nofun, nofun, ?_⟩⟩
    dsimp only [rank]
    simp [Prod.Lex.toLex_lt_toLex]
  all_goals
    refine ⟨fun h => absurd h ?_, fun h => by rcases h with h | ⟨_, _, _, h⟩ <;> cases h⟩
    rintro ⟨-, hx, h⟩
  case notANumber => exact hx rfl
  all_goals
    dsimp only [rank] at h
    simp [Prod.Lex.toLex_lt_toLex] at h

end Lindenmayer
