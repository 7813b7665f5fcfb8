import Lindenmayer.Picture.Color

/-! Equality of doubles as the machine compares them: symmetric and transitive, and reflexive
everywhere but at what is not a number. -/
namespace Lindenmayer
open Float.Model (UnpackedFloat)

def unsignedZero : UnpackedFloat → UnpackedFloat
  | .zero _ => .zero .positive
  | u => u

theorem unsignedZero_eq_iff {u v : UnpackedFloat} :
    unsignedZero u = unsignedZero v ↔ u = v ∨ ∃ s t, u = .zero s ∧ v = .zero t := by
  constructor
  · intro h
    cases u with
    | zero s => cases v with
      | zero t => exact .inr ⟨s, t, rfl, rfl⟩
      | _ => cases h
    | _ => cases v with
      | zero t => cases h
      | _ => exact .inl h
  · rintro (rfl | ⟨s, t, rfl, rfl⟩) <;> rfl

private theorem compare_finite (s : UnpackedFloat.Sign) {m n : Nat} {e f : Int} (hm : 0 < m)
    (hn : 0 < n) : (UnpackedFloat.finite s m e hm).compare (.finite s n f hn) = some .eq ↔
      UnpackedFloat.finite s m e hm = .finite s n f hn := by
  have ho : (compare e f).then (compare m n) = .eq ↔ e = f ∧ m = n := by
    simp [Ordering.then_eq_eq]
  rw [UnpackedFloat.finite.injEq, eq_self, true_and, and_comm, ← ho]
  cases s with
  | positive => exact Option.some_inj
  | negative =>
    change some ((compare e f).then (compare m n)).swap = some .eq ↔ _
    cases (compare e f).then (compare m n) <;> simp

/-- Two doubles compare as equal when they differ in the sign of a zero at most, unless they are
not numbers. -/
private theorem compare_eq_iff (u v : UnpackedFloat) :
    u.compare v = some .eq ↔ unsignedZero u = unsignedZero v ∧ u ≠ .notANumber := by
  rcases u with (_ | _) | _ | _ | ⟨_ | _, m, e, hm⟩ <;>
    rcases v with (_ | _) | _ | _ | ⟨_ | _, n, f, hn⟩ <;>
    first
    | exact ⟨fun _ => ⟨rfl, fun h => by cases h⟩, fun _ => rfl⟩
    | exact ⟨fun h => (by cases h), fun h => absurd rfl h.2⟩
    | exact ⟨fun h => (by cases h), fun h => (by cases h.1)⟩
    | exact (compare_finite _ hm hn).trans (and_iff_left (fun h => by cases h)).symm

theorem beq_iff (x y : Float) :
    (x == y) = true ↔
      unsignedZero x.toModel.unpack = unsignedZero y.toModel.unpack ∧
        x.toModel.unpack ≠ .notANumber := by
  rw [← compare_eq_iff]
  exact beq_iff_eq (a := x.toModel.unpack.compare y.toModel.unpack)

theorem unsignedZero_eq_notANumber (u : UnpackedFloat) :
    unsignedZero u = .notANumber ↔ u = .notANumber := by
  cases u with
  | zero _ => exact ⟨fun h => (by cases h), fun h => (by cases h)⟩
  | _ => exact Iff.rfl

instance floatPartialEquivBEq : PartialEquivBEq Float where
  symm {x y} h := by
    obtain ⟨he, hx⟩ := (beq_iff x y).mp h
    refine (beq_iff y x).mpr ⟨he.symm, ?_⟩
    intro hy
    rw [← unsignedZero_eq_notANumber, ← he, unsignedZero_eq_notANumber] at hy
    exact hx hy
  trans {x y z} h k := by
    obtain ⟨he, hx⟩ := (beq_iff x y).mp h
    obtain ⟨hf, _⟩ := (beq_iff y z).mp k
    exact (beq_iff x z).mpr ⟨he.trans hf, hx⟩

theorem isNaN_iff (x : Float) : x.isNaN = true ↔ x.toModel.unpack = .notANumber := by
  change x.toModel.unpack.isNaN = true ↔ _
  cases x.toModel.unpack with
  | notANumber => exact ⟨fun _ => rfl, fun _ => rfl⟩
  | _ => exact ⟨nofun, nofun⟩

/-- A double equals itself unless it is not a number. -/
theorem beq_self_eq_not_isNaN (x : Float) : (x == x) = !x.isNaN := by
  have h := beq_iff x x
  have hn := isNaN_iff x
  cases hx : x.isNaN <;> simp_all

theorem beq_self {x : Float} (h : x.isNaN = false) : (x == x) = true := by
  rw [beq_self_eq_not_isNaN, h]
  rfl

theorem isFinite_of_beq_zero {x : Float} (h : (x == 0) = true) : x.isFinite = true := by
  have hz : unsignedZero x.toModel.unpack = .zero .positive := ((beq_iff x 0).mp h).1
  change x.toModel.unpack.isFinite = true
  cases hu : x.toModel.unpack with
  | zero _ => rfl
  | _ => rw [hu] at hz; cases hz

private theorem color_beq_iff (a b : Color) :
    (a == b) = true ↔
      (a.red == b.red) = true ∧ (a.green == b.green) = true ∧ (a.blue == b.blue) = true := by
  rw [← Bool.and_eq_true, ← Bool.and_eq_true]
  rfl

instance colorPartialEquivBEq : PartialEquivBEq Color where
  symm {a b} h := by
    obtain ⟨hr, hg, hb⟩ := (color_beq_iff a b).mp h
    exact (color_beq_iff b a).mpr ⟨BEq.symm hr, BEq.symm hg, BEq.symm hb⟩
  trans {a b c} h k := by
    obtain ⟨hr, hg, hb⟩ := (color_beq_iff a b).mp h
    obtain ⟨kr, kg, kb⟩ := (color_beq_iff b c).mp k
    exact (color_beq_iff a c).mpr ⟨BEq.trans hr kr, BEq.trans hg kg, BEq.trans hb kb⟩

/-- Equality of the numbers that two doubles stand for. The zeros of both signs are one number,
and what is not a number is the same as itself. -/
def SameNumber (x y : Float) : Prop := (x == y) = true ∨ x.isNaN = true ∧ y.isNaN = true

theorem SameNumber.refl (x : Float) : SameNumber x x := by
  cases hx : x.isNaN with
  | true => exact .inr ⟨hx, hx⟩
  | false => exact .inl (by rw [beq_self_eq_not_isNaN, hx]; rfl)

end Lindenmayer
