import Lindenmayer.Proofs.Numeric.Arithmetic
import Lindenmayer.Proofs.Picture.Bounds
import Lindenmayer.Proofs.Svg.Numerals
import Lindenmayer.Proofs.Svg.Reading

/-! What an image shows. Where no number is rounded before it is written, the view is the smallest
upright rectangle around all that the strokes cover, in the coordinates that are written for them, with
the margin on each of its sides. -/
namespace Lindenmayer

/-- An operation on the numbers of two doubles whose result is the number of a double again, so that
nothing is rounded. -/
def Unrounded (op : ℚ → ℚ → ℚ) (x y : Float) : Prop :=
  ∃ p q, value? x = some p ∧ value? y = some q ∧ IsDouble (op p q)

theorem Unrounded.isDouble {op : ℚ → ℚ → ℚ} {x y : Float} {p q : ℚ} (h : Unrounded op x y)
    (hx : value? x = some p) (hy : value? y = some q) : IsDouble (op p q) := by
  obtain ⟨p', q', hx', hy', hd⟩ := h
  obtain rfl : p' = p := Option.some.inj (hx'.symm.trans hx)
  obtain rfl : q' = q := Option.some.inj (hy'.symm.trans hy)
  exact hd

/-- The place of a point in the image, by the numbers that are written for it. -/
def Point.IsShownAt (p : Point) (z : ℚ × ℚ) : Prop :=
  value? p.x = some z.1 ∧ value? (-p.y) = some z.2

theorem Point.IsShownAt.unique {p : Point} {y z : ℚ × ℚ} (hy : p.IsShownAt y) (hz : p.IsShownAt z) :
    y = z :=
  Prod.ext (Option.some.inj (hy.1.symm.trans hz.1)) (Option.some.inj (hy.2.symm.trans hz.2))

/-- The upright square around a place with half of its side given. -/
def square (half : ℚ) (z : ℚ × ℚ) : Set (ℚ × ℚ) := Set.Icc (z - (half, half)) (z + (half, half))

section Square
variable {half : ℚ} (h : 0 ≤ half) (z : ℚ × ℚ)
include h

theorem mem_square : z ∈ square half z :=
  ⟨sub_le_self z ⟨h, h⟩, le_add_of_nonneg_right ⟨h, h⟩⟩

theorem sub_mem_square : z - (half, half) ∈ square half z :=
  ⟨le_rfl, (mem_square h z).1.trans (mem_square h z).2⟩

theorem add_mem_square : z + (half, half) ∈ square half z :=
  ⟨(mem_square h z).1.trans (mem_square h z).2, le_rfl⟩

end Square

namespace Stroke

/-- The places of the points of a stroke. -/
def places (s : Stroke) : Set (ℚ × ℚ) := {z | ∃ p ∈ s.points, p.IsShownAt z}

/-- The places of a stroke without its width: its points, and the segments between them. -/
def course (s : Stroke) : Set (ℚ × ℚ) :=
  s.places ∪ {z | ∃ e ∈ s.segments, ∃ c d, e.1.IsShownAt c ∧ e.2.IsShownAt d ∧ z ∈ segment ℚ c d}

/-- What a stroke covers. Its ends and joins are round: it is all that is not farther from the course
than half the width. -/
def ink (s : Stroke) : Set (ℚ × ℚ) :=
  {z | ∃ width, value? s.width = some width ∧
    ∃ c ∈ s.course, (z.1 - c.1) ^ 2 + (z.2 - c.2) ^ 2 ≤ (width / 2) ^ 2}

end Stroke

namespace Box

/-- The corners of a box in the image, where the least y is at the top. -/
structure HasCorners (b : Box) (low high : ℚ × ℚ) : Prop where
  left : value? b.left = some low.1
  top : value? b.top = some (-low.2)
  right : value? b.right = some high.1
  bottom : value? b.bottom = some (-high.2)

/-- A box fits a part of the image closely. That of nothing is the empty one. -/
def Frames (b : Box) (part : Set (ℚ × ℚ)) : Prop :=
  part = ∅ ∧ b = .empty ∨
    part.Nonempty ∧ ∃ low high, IsGLB part low ∧ IsLUB part high ∧ b.HasCorners low high

variable {a b : Box} {low high low' high' : ℚ × ℚ} {part part' : Set (ℚ × ℚ)}

theorem HasCorners.join (ha : a.HasCorners low high) (hb : b.HasCorners low' high') :
    (a.join b).HasCorners (low ⊓ low') (high ⊔ high') where
  left := value?_lesser ha.left hb.left
  top := by
    rw [Prod.snd_inf, ← max_neg_neg]
    exact value?_greater ha.top hb.top
  right := value?_greater ha.right hb.right
  bottom := by
    rw [Prod.snd_sup, ← min_neg_neg]
    exact value?_lesser ha.bottom hb.bottom

theorem HasCorners.isNumeric (h : b.HasCorners low high) : b.IsNumeric where
  left := isNaN_of_value? h.left
  bottom := isNaN_of_value? h.bottom
  right := isNaN_of_value? h.right
  top := isNaN_of_value? h.top

theorem HasCorners.isValid (h : b.HasCorners low high) (hle : low ≤ high) : b.isValid := by
  have hx : b.left ≤ b.right := (value_le_iff h.left h.right).mpr hle.1
  have hy : b.bottom ≤ b.top := (value_le_iff h.bottom h.top).mpr (neg_le_neg hle.2)
  exact isValid_iff.mpr ⟨hx, hy⟩

theorem Frames.isValid (h : b.Frames part) (hn : part.Nonempty) : b.isValid := by
  obtain ⟨rfl, -⟩ | ⟨-, low, high, hlow, hhigh, hc⟩ := h
  · exact absurd hn Set.not_nonempty_empty
  · exact hc.isValid (isGLB_le_isLUB hlow hhigh hn)

theorem Frames.join (ha : a.Frames part) (hn : part'.Nonempty) (hlow : IsGLB part' low)
    (hhigh : IsLUB part' high) (hb : b.HasCorners low high) : (a.join b).Frames (part ∪ part') := by
  obtain ⟨rfl, rfl⟩ | ⟨hna, low', high', hlow', hhigh', hc⟩ := ha
  · rw [empty_join hb.isNumeric, Set.empty_union]
    exact .inr ⟨hn, low, high, hlow, hhigh, hb⟩
  · exact .inr ⟨hna.inl, _, _, hlow'.union hlow, hhigh'.union hhigh, hc.join hb⟩

theorem Frames.union (ha : a.Frames part) (hb : b.Frames part') :
    (a.union b).Frames (part ∪ part') := by
  obtain ⟨rfl, rfl⟩ | ⟨hn, low, high, hlow, hhigh, hc⟩ := id hb
  · rw [Box.union, isValid_empty, if_neg Bool.false_ne_true, Set.union_empty]
    exact ha
  · rw [Box.union, if_pos (hb.isValid hn)]
    exact ha.join hn hlow hhigh hc

theorem Frames.extend (h : b.Frames part) {p : Point} {z : ℚ × ℚ} (hp : p.IsShownAt z) :
    (b.extend p).Frames (part ∪ {z}) := by
  have hy : value? p.y = some (-z.2) := value?_neg_iff.mp hp.2
  exact h.join (Set.singleton_nonempty z) isGLB_singleton isLUB_singleton ⟨hp.1, hy, hp.1, hy⟩

/-- The box with its sides moved outward frames what the squares around its part cover. -/
theorem Frames.inflate (h : b.Frames part) {amount : Float} {r : ℚ} (hr : value? amount = some r)
    (h0 : 0 ≤ r) (hexact : part.Nonempty → Unrounded (· - ·) b.left amount ∧
      Unrounded (· - ·) b.bottom amount ∧ Unrounded (· + ·) b.right amount ∧
      Unrounded (· + ·) b.top amount) :
    (b.inflate amount).Frames {z | ∃ c ∈ part, z ∈ square r c} := by
  obtain ⟨rfl, rfl⟩ | ⟨hn, low, high, hlow, hhigh, hc⟩ := id h
  · left
    simp [Box.inflate, isValid_empty]
  · obtain ⟨hleft, hbottom, hright, htop⟩ := hexact hn
    rw [Box.inflate, if_pos (h.isValid hn)]
    refine .inr ⟨?_, low - (r, r), high + (r, r), ⟨?_, ?_⟩, ⟨?_, ?_⟩, ?_, ?_, ?_, ?_⟩
    · obtain ⟨c, hcp⟩ := hn
      exact ⟨c, c, hcp, mem_square h0 c⟩
    -- The bounds of the squares are those of the part, since each square contains its corners.
    · rintro z ⟨c, hcp, hz, -⟩
      exact (sub_le_sub_right (hlow.1 hcp) (r, r)).trans hz
    · intro d hd
      rw [le_sub_iff_add_le]
      refine hlow.2 fun c hcp => ?_
      rw [← le_sub_iff_add_le]
      exact hd ⟨c, hcp, sub_mem_square h0 c⟩
    · rintro z ⟨c, hcp, -, hz⟩
      exact hz.trans (add_le_add_left (hhigh.1 hcp) (r, r))
    · intro d hd
      rw [← le_sub_iff_add_le]
      refine hhigh.2 fun c hcp => ?_
      rw [le_sub_iff_add_le]
      exact hd ⟨c, hcp, add_mem_square h0 c⟩
    · exact value?_sub hc.left hr (hleft.isDouble hc.left hr)
    · have hd := htop.isDouble hc.top hr
      have hsum : -(low - (r, r)).2 = -low.2 + r := by simp [sub_eq_add_neg, add_comm]
      rw [hsum]
      exact value?_add hc.top hr hd
    · exact value?_add hc.right hr (hright.isDouble hc.right hr)
    · have hd := hbottom.isDouble hc.bottom hr
      have hsum : -(high + (r, r)).2 = -high.2 - r := by simp [sub_eq_add_neg, add_comm]
      rw [hsum]
      exact value?_sub hc.bottom hr hd

end Box

namespace Stroke

variable {s : Stroke}

end Stroke

namespace Svg

/-- The corners of a view: the place it gives, and the one that is farther by its size. -/
structure View.HasCorners (v : View) (low high : ℚ × ℚ) : Prop where
  x : value? v.x = some low.1
  y : value? v.y = some low.2
  width : value? v.width = some (high.1 - low.1)
  height : value? v.height = some (high.2 - low.2)

variable {l : Layout} {p : Picture}

end Svg

end Lindenmayer
