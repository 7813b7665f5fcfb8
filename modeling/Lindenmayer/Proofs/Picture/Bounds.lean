import Lindenmayer.Picture.Box
import Lindenmayer.Proofs.Numeric.Extremes

/-! Bounds of pictures, also where they are rounded or infinite. The box of a picture is the tightest
one around the boxes of its strokes. What has no points has no part in it, and in which order the rest
is looked at does not matter. -/
namespace Lindenmayer

/-- The box that holds one point and nothing else. -/
def Point.box (p : Point) : Box := ⟨p.x, p.y, p.x, p.y⟩

namespace Box

/-- A box whose sides are numbers, maybe infinite ones. -/
structure IsNumeric (b : Box) : Prop where
  left : b.left.isNaN = false
  bottom : b.bottom.isNaN = false
  right : b.right.isNaN = false
  top : b.top.isNaN = false

/-- A box is the tightest one around some others when each of its sides is the outermost of theirs. -/
structure IsHull (b : Box) (parts : List Box) : Prop where
  left : IsLeast {x | ∃ a ∈ parts, a.left = x} b.left
  bottom : IsLeast {y | ∃ a ∈ parts, a.bottom = y} b.bottom
  right : IsGreatest {x | ∃ a ∈ parts, a.right = x} b.right
  top : IsGreatest {y | ∃ a ∈ parts, a.top = y} b.top

/-- Two boxes whose sides are equal numbers. A zero may have either sign. -/
structure SameSides (a b : Box) : Prop where
  left : a.left == b.left
  bottom : a.bottom == b.bottom
  right : a.right == b.right
  top : a.top == b.top

variable {a b c : Box} {l : List Box}

theorem isValid_iff : b.isValid ↔ b.left ≤ b.right ∧ b.bottom ≤ b.top := by simp [isValid]

theorem isValid_empty : empty.isValid = false := by decide +kernel

theorem isNumeric_of_isValid (h : b.isValid) : b.IsNumeric where
  left := isNaN_of_le (isValid_iff.mp h).1
  bottom := isNaN_of_le (isValid_iff.mp h).2
  right := isNaN_of_ge (isValid_iff.mp h).1
  top := isNaN_of_ge (isValid_iff.mp h).2

theorem IsNumeric.sameSides (h : b.IsNumeric) : b.SameSides b :=
  ⟨beq_self h.left, beq_self h.bottom, beq_self h.right, beq_self h.top⟩

/-! ### Boxes joined one after the other -/

instance associative_join : Std.Associative join :=
  ⟨fun a b c => by simp only [join, associative_lesser.assoc, associative_greater.assoc]⟩

theorem empty_join (h : b.IsNumeric) : empty.join b = b := by
  simp only [join, empty, lesser_infinity h.left, lesser_infinity h.bottom,
    greater_neg_infinity h.right, greater_neg_infinity h.top]

private theorem foldl_join (b : Box) (l : List Box) :
    l.foldl join b = ⟨(l.map left).foldl lesser b.left, (l.map bottom).foldl lesser b.bottom,
      (l.map right).foldl greater b.right, (l.map top).foldl greater b.top⟩ := by
  induction l generalizing b with
  | nil => rfl
  | cons a l ih => exact ih (b.join a)

/-- Joining boxes one after the other leads to the tightest box around them. -/
theorem isHull_foldl_join (hl : l ≠ []) (h : ∀ a ∈ l, a.IsNumeric) :
    (l.foldl join empty).IsHull l := by
  obtain ⟨b, l, rfl⟩ := List.exists_cons_of_ne_nil hl
  rw [List.foldl_cons, empty_join (h b List.mem_cons_self), foldl_join]
  have hset (side : Box → Float) :
      {x | ∃ a ∈ b :: l, side a = x} = {x | x ∈ side b :: l.map side} := by
    rw [← List.map_cons]
    simp only [List.mem_map]
  have hnan {side : Box → Float} (hside : ∀ a, a.IsNumeric → (side a).isNaN = false) :
      ∀ x ∈ side b :: l.map side, x.isNaN = false := by
    rw [← List.map_cons]
    exact List.forall_mem_map.mpr fun a ha => hside a (h a ha)
  exact
    { left := hset left ▸ isLeast_foldl_lesser (hnan fun _ ha => ha.left)
      bottom := hset bottom ▸ isLeast_foldl_lesser (hnan fun _ ha => ha.bottom)
      right := hset right ▸ isGreatest_foldl_greater (hnan fun _ ha => ha.right)
      top := hset top ▸ isGreatest_foldl_greater (hnan fun _ ha => ha.top) }

/-- Invalid boxes have no part in a union. -/
theorem foldl_union (b : Box) (l : List Box) :
    l.foldl union b = (l.filter isValid).foldl join b :=
  (List.foldl_filter ..).symm

theorem IsHull.isValid (h : b.IsHull l) (hl : l ≠ []) (hvalid : ∀ a ∈ l, a.isValid) :
    b.isValid := by
  obtain ⟨a, ha⟩ := List.exists_mem_of_ne_nil l hl
  obtain ⟨hx, hy⟩ := isValid_iff.mp (hvalid a ha)
  exact isValid_iff.mpr
    ⟨float_le_trans (h.left.2 ⟨a, ha, rfl⟩) (float_le_trans hx (h.right.2 ⟨a, ha, rfl⟩)),
      float_le_trans (h.bottom.2 ⟨a, ha, rfl⟩) (float_le_trans hy (h.top.2 ⟨a, ha, rfl⟩))⟩

/-- Sides that come first in some order are equal when the sides they are taken from are. -/
private theorem beq_of_first (first : Float → Float → Prop) (side : Box → Float) {m : List Box}
    {x y : Float} (htrans : ∀ {x y z}, first x y → first y z → first x z)
    (hbeq : ∀ {x y : Float}, (x == y) = true ↔ first x y ∧ first y x)
    (hl : ∀ a ∈ l, ∃ a' ∈ m, (side a == side a') = true)
    (hm : ∀ a' ∈ m, ∃ a ∈ l, (side a == side a') = true)
    (hx : (∃ a ∈ l, side a = x) ∧ ∀ a ∈ l, first x (side a))
    (hy : (∃ a ∈ m, side a = y) ∧ ∀ a ∈ m, first y (side a)) : (x == y) = true := by
  obtain ⟨⟨a, ha, rfl⟩, hxl⟩ := hx
  obtain ⟨⟨a', ha', rfl⟩, hym⟩ := hy
  obtain ⟨d', hd', hd⟩ := hl a ha
  obtain ⟨e, he, he'⟩ := hm a' ha'
  exact hbeq.mpr
    ⟨htrans (hxl e he) (hbeq.mp he').1, htrans (hym d' hd') (hbeq.mp hd).2⟩

/-- The tightest box does not depend on the order of the parts, nor on how the zeros among their sides are
signed. -/
theorem IsHull.sameSides {m : List Box} (hb : b.IsHull l) (hc : c.IsHull m)
    (hl : ∀ a ∈ l, ∃ a' ∈ m, a.SameSides a') (hm : ∀ a' ∈ m, ∃ a ∈ l, a.SameSides a') :
    b.SameSides c := by
  have hside {side : Box → Float} (h : ∀ {a a'}, a.SameSides a' → (side a == side a') = true) :
      (∀ a ∈ l, ∃ a' ∈ m, (side a == side a') = true) ∧
        ∀ a' ∈ m, ∃ a ∈ l, (side a == side a') = true :=
    ⟨fun a ha => (hl a ha).imp fun _ => And.imp_right h,
      fun a ha => (hm a ha).imp fun _ => And.imp_right h⟩
  have hleast (side : Box → Float) {x y : Float} (hx : IsLeast {x | ∃ a ∈ l, side a = x} x)
      (hy : IsLeast {y | ∃ a ∈ m, side a = y} y)
      (h : ∀ {a a'}, a.SameSides a' → (side a == side a') = true) : (x == y) = true :=
    beq_of_first (· ≤ ·) side float_le_trans beq_iff_le (hside h).1 (hside h).2
      ⟨hx.1, fun a ha => hx.2 ⟨a, ha, rfl⟩⟩ ⟨hy.1, fun a ha => hy.2 ⟨a, ha, rfl⟩⟩
  have hgreatest (side : Box → Float) {x y : Float} (hx : IsGreatest {x | ∃ a ∈ l, side a = x} x)
      (hy : IsGreatest {y | ∃ a ∈ m, side a = y} y)
      (h : ∀ {a a'}, a.SameSides a' → (side a == side a') = true) : (x == y) = true :=
    beq_of_first (· ≥ ·) side (fun h k => float_le_trans k h) (beq_iff_le.trans and_comm)
      (hside h).1 (hside h).2
      ⟨hx.1, fun a ha => hx.2 ⟨a, ha, rfl⟩⟩ ⟨hy.1, fun a ha => hy.2 ⟨a, ha, rfl⟩⟩
  exact
    { left := hleast Box.left hb.left hc.left fun h => h.left
      bottom := hleast Box.bottom hb.bottom hc.bottom fun h => h.bottom
      right := hgreatest Box.right hb.right hc.right fun h => h.right
      top := hgreatest Box.top hb.top hc.top fun h => h.top }

/-! ### Boxes moved outward -/

theorem isValid_inflate {amount : Float} {x y z w : ℚ} (h : b.isValid) (h0 : 0 ≤ amount)
    (hleft : value? b.left = some x) (hbottom : value? b.bottom = some y)
    (hright : value? b.right = some z) (htop : value? b.top = some w) :
    (b.inflate amount).isValid := by
  obtain ⟨hx, hy⟩ := isValid_iff.mp h
  rw [inflate, if_pos h]
  exact isValid_iff.mpr
    ⟨float_le_trans (float_sub_le hleft h0)
        (float_le_trans hx (float_le_add (neg_infinity_lt_of_value? hright) h0)),
      float_le_trans (float_sub_le hbottom h0)
        (float_le_trans hy (float_le_add (neg_infinity_lt_of_value? htop) h0))⟩

theorem SameSides.inflate {amount : Float} (h : a.SameSides b) (ha : a.isValid) (hb : b.isValid)
    (hvalid : (a.inflate amount).isValid) : (a.inflate amount).SameSides (b.inflate amount) := by
  have hnumeric := isNumeric_of_isValid hvalid
  rw [Box.inflate, if_pos ha] at hnumeric ⊢
  rw [Box.inflate, if_pos hb]
  exact ⟨float_sub_congr h.left hnumeric.left, float_sub_congr h.bottom hnumeric.bottom,
    float_add_congr h.right hnumeric.right, float_add_congr h.top hnumeric.top⟩

end Box

namespace Stroke

/-- A stroke whose points are finite and whose width is a number, maybe an infinite one. -/
structure IsMeasured (s : Stroke) : Prop where
  points : ∀ p ∈ s.points, p.x.isFinite ∧ p.y.isFinite
  width : s.width.isNaN = false

/-- A stroke through the points of another one in some order, with its width. -/
def Reordered (s t : Stroke) : Prop := s.points.Perm t.points ∧ s.width = t.width

variable {s t : Stroke}

theorem pathBox_eq (s : Stroke) : s.pathBox = (s.points.map Point.box).foldl Box.join .empty := by
  rw [List.foldl_map]
  rfl

/-- Without points there is nothing to be widened. -/
theorem box_of_points_eq_nil (h : s.points = []) : s.box = .empty := by
  simp [box, pathBox, h, Box.inflate, Box.isValid_empty]

section Measured
variable (h : s.IsMeasured) (hs : s.points ≠ [])
include h

private theorem isValid_pointBox : ∀ a ∈ s.points.map Point.box, a.isValid := by
  refine List.forall_mem_map.mpr fun p hp => Box.isValid_iff.mpr ?_
  obtain ⟨x, hx⟩ := isFinite_iff_value?.mp (h.points p hp).1
  obtain ⟨y, hy⟩ := isFinite_iff_value?.mp (h.points p hp).2
  exact ⟨(value_le_iff hx hx).mpr le_rfl, (value_le_iff hy hy).mpr le_rfl⟩

include hs

theorem isHull_pathBox : s.pathBox.IsHull (s.points.map Point.box) := by
  rw [pathBox_eq]
  exact Box.isHull_foldl_join (List.map_eq_nil_iff.not.mpr hs)
    fun a ha => Box.isNumeric_of_isValid (isValid_pointBox h a ha)

theorem isValid_pathBox : s.pathBox.isValid :=
  (isHull_pathBox h hs).isValid (List.map_eq_nil_iff.not.mpr hs) (isValid_pointBox h)

/-- Half the width is added to each side. Rounding moves no side inward. -/
theorem isValid_box : s.box.isValid := by
  have hhull := isHull_pathBox h hs
  have hvalue (side : Box → Float) (hside : ∀ p ∈ s.points, (side p.box).isFinite) {x : Float}
      (hx : ∃ a ∈ s.points.map Point.box, side a = x) : ∃ q, value? x = some q := by
    obtain ⟨_, ha, rfl⟩ := hx
    obtain ⟨p, hp, rfl⟩ := List.mem_map.mp ha
    exact isFinite_iff_value?.mp (hside p hp)
  obtain ⟨x, hleft⟩ := hvalue Box.left (fun p hp => (h.points p hp).1) hhull.left.1
  obtain ⟨y, hbottom⟩ := hvalue Box.bottom (fun p hp => (h.points p hp).2) hhull.bottom.1
  obtain ⟨z, hright⟩ := hvalue Box.right (fun p hp => (h.points p hp).1) hhull.right.1
  obtain ⟨w, htop⟩ := hvalue Box.top (fun p hp => (h.points p hp).2) hhull.top.1
  rw [box]
  exact Box.isValid_inflate (isValid_pathBox h hs) (zero_le_half_abs h.width) hleft hbottom hright
    htop

end Measured

theorem isValid_box_iff (h : s.IsMeasured) : s.box.isValid ↔ s.points ≠ [] := by
  refine ⟨fun hvalid hs => ?_, isValid_box h⟩
  rw [box_of_points_eq_nil hs, Box.isValid_empty] at hvalid
  exact Bool.false_ne_true hvalid

theorem Reordered.isMeasured (h : s.IsMeasured) (hst : s.Reordered t) : t.IsMeasured :=
  ⟨fun p hp => h.points p (hst.1.mem_iff.mpr hp), hst.2 ▸ h.width⟩

theorem Reordered.points_eq_nil_iff (hst : s.Reordered t) : s.points = [] ↔ t.points = [] :=
  ⟨fun hs => List.nil_perm.mp (hs ▸ hst.1), fun ht => List.perm_nil.mp (ht ▸ hst.1)⟩

/-- The box of a stroke does not depend on the order of its points. -/
theorem Reordered.sameSides_box (h : s.IsMeasured) (hs : s.points ≠ []) (hst : s.Reordered t) :
    s.box.SameSides t.box := by
  have ht := hst.isMeasured h
  have ht' := mt hst.points_eq_nil_iff.mpr hs
  obtain ⟨hperm, hwidth⟩ := hst
  have hmem (a : Box) : a ∈ s.points.map Point.box ↔ a ∈ t.points.map Point.box :=
    (hperm.map Point.box).mem_iff
  have hsame : s.pathBox.SameSides t.pathBox := by
    have hself : ∀ a ∈ s.points.map Point.box, a.SameSides a :=
      fun a ha => (Box.isNumeric_of_isValid (isValid_pointBox h a ha)).sameSides
    exact (isHull_pathBox h hs).sameSides (isHull_pathBox ht ht')
      (fun a ha => ⟨a, (hmem a).mp ha, hself a ha⟩)
      (fun a ha => ⟨a, (hmem a).mpr ha, hself a ((hmem a).mpr ha)⟩)
  rw [box, box, ← hwidth]
  exact hsame.inflate (isValid_pathBox h hs) (isValid_pathBox ht ht') (isValid_box h hs)

end Stroke

namespace Picture

/-- A picture whose points are finite and whose widths are numbers, maybe infinite ones. -/
def IsMeasured (p : Picture) : Prop := ∀ s ∈ p.strokes, s.IsMeasured

/-- The strokes of a picture that have a point. -/
def pointed (p : Picture) : List Stroke := p.strokes.filter fun s => !s.points.isEmpty

/-- The strokes of a picture in some order, each with its points in some order. -/
def Reordered (p q : Picture) : Prop :=
  ∃ strokes, p.strokes.Perm strokes ∧ List.Forall₂ Stroke.Reordered strokes q.strokes

variable {p q : Picture}

theorem mem_pointed {s : Stroke} : s ∈ p.pointed ↔ s ∈ p.strokes ∧ s.points ≠ [] := by
  simp [pointed]

theorem box_eq (h : p.IsMeasured) : p.box = (p.pointed.map Stroke.box).foldl Box.join .empty := by
  have hfilter : (p.strokes.map Stroke.box).filter Box.isValid = p.pointed.map Stroke.box := by
    rw [List.filter_map, pointed]
    refine congrArg _ (List.filter_congr fun s hs => ?_)
    rw [Function.comp, Bool.eq_iff_iff, Stroke.isValid_box_iff (h s hs)]
    simp
  rw [box, Box.foldl_union, hfilter]

theorem isValid_of_mem_pointed (h : p.IsMeasured) : ∀ a ∈ p.pointed.map Stroke.box, a.isValid := by
  refine List.forall_mem_map.mpr fun s hs => ?_
  obtain ⟨hs, hpoints⟩ := mem_pointed.mp hs
  exact Stroke.isValid_box (h s hs) hpoints

theorem isHull_box (h : p.IsMeasured) (hp : p.pointed ≠ []) :
    p.box.IsHull (p.pointed.map Stroke.box) := by
  rw [box_eq h]
  exact Box.isHull_foldl_join (List.map_eq_nil_iff.not.mpr hp)
    fun a ha => Box.isNumeric_of_isValid (isValid_of_mem_pointed h a ha)

theorem isValid_box (h : p.IsMeasured) (hp : p.pointed ≠ []) : p.box.isValid :=
  (isHull_box h hp).isValid (List.map_eq_nil_iff.not.mpr hp) (isValid_of_mem_pointed h)

theorem isValid_box_iff (h : p.IsMeasured) : p.box.isValid ↔ p.pointed ≠ [] := by
  refine ⟨fun hvalid hp => ?_, isValid_box h⟩
  rw [box_eq h, hp, List.map_nil, List.foldl_nil, Box.isValid_empty] at hvalid
  exact Bool.false_ne_true hvalid

/-- The box of two pictures put together is the union of theirs. -/
theorem box_append (h : p.IsMeasured) (hq : q.IsMeasured) :
    (Picture.mk (p.strokes ++ q.strokes)).box = p.box.union q.box := by
  have happend : (Picture.mk (p.strokes ++ q.strokes)).IsMeasured :=
    fun s hs => (List.mem_append.mp hs).elim (h s) (hq s)
  have hpointed : (Picture.mk (p.strokes ++ q.strokes)).pointed = p.pointed ++ q.pointed :=
    List.filter_append ..
  rw [box_eq happend, hpointed, List.map_append, List.foldl_append, ← box_eq h]
  by_cases hnil : q.pointed = []
  · have hinvalid : q.box.isValid = false := Bool.eq_false_iff.mpr ((isValid_box_iff hq).not_left.mpr hnil)
    rw [Box.union, hinvalid, hnil]
    rfl
  · rw [Box.union, if_pos (isValid_box hq hnil), box_eq hq]
    obtain ⟨b, l, hbl⟩ := List.exists_cons_of_ne_nil (List.map_eq_nil_iff.not.mpr hnil)
    have hb := Box.isNumeric_of_isValid (isValid_of_mem_pointed hq b (hbl ▸ List.mem_cons_self))
    rw [hbl, List.foldl_cons, List.foldl_cons, Box.empty_join hb, List.foldl_assoc]

private theorem exists_of_mem_forall₂ {α β : Type*} {R : α → β → Prop} {l : List α} {m : List β}
    (h : List.Forall₂ R l m) {a : α} (ha : a ∈ l) : ∃ b ∈ m, R a b := by
  induction h with
  | nil => cases ha
  | @cons a' b l m hab _ ih =>
    obtain rfl | ha := List.mem_cons.mp ha
    · exact ⟨b, List.mem_cons_self, hab⟩
    · obtain ⟨b, hb, hab⟩ := ih ha
      exact ⟨b, List.mem_cons_of_mem _ hb, hab⟩

/-- Each stroke is drawn again, and nothing else is. -/
theorem Reordered.exists_stroke (hpq : p.Reordered q) :
    (∀ s ∈ p.strokes, ∃ t ∈ q.strokes, s.Reordered t) ∧
      ∀ t ∈ q.strokes, ∃ s ∈ p.strokes, s.Reordered t := by
  obtain ⟨strokes, hperm, hall⟩ := hpq
  refine ⟨fun s hs => exists_of_mem_forall₂ hall (hperm.mem_iff.mp hs), fun t ht => ?_⟩
  obtain ⟨s, hs, hst⟩ := exists_of_mem_forall₂ hall.flip ht
  exact ⟨s, hperm.mem_iff.mpr hs, hst⟩

theorem Reordered.isMeasured (h : p.IsMeasured) (hpq : p.Reordered q) : q.IsMeasured := by
  intro t ht
  obtain ⟨s, hs, hst⟩ := hpq.exists_stroke.2 t ht
  exact hst.isMeasured (h s hs)

theorem Reordered.exists_pointed (hpq : p.Reordered q) :
    (∀ s ∈ p.pointed, ∃ t ∈ q.pointed, s.Reordered t) ∧
      ∀ t ∈ q.pointed, ∃ s ∈ p.pointed, s.Reordered t := by
  refine ⟨fun s hs => ?_, fun t ht => ?_⟩
  · obtain ⟨hs, hpoints⟩ := mem_pointed.mp hs
    obtain ⟨t, ht, hst⟩ := hpq.exists_stroke.1 s hs
    exact ⟨t, mem_pointed.mpr ⟨ht, mt hst.points_eq_nil_iff.mpr hpoints⟩, hst⟩
  · obtain ⟨ht, hpoints⟩ := mem_pointed.mp ht
    obtain ⟨s, hs, hst⟩ := hpq.exists_stroke.2 t ht
    exact ⟨s, mem_pointed.mpr ⟨hs, mt hst.points_eq_nil_iff.mp hpoints⟩, hst⟩

/-- The box of a picture does not depend on the order of its strokes or of their points. -/
theorem Reordered.sameSides_box (h : p.IsMeasured) (hpq : p.Reordered q) :
    p.box.SameSides q.box := by
  have hq := hpq.isMeasured h
  obtain ⟨hnext, hback⟩ := hpq.exists_pointed
  by_cases hp : p.pointed = []
  · have hnil : q.pointed = [] := by
      refine List.eq_nil_iff_forall_not_mem.mpr fun t ht => ?_
      obtain ⟨s, hs, -⟩ := hback t ht
      exact List.not_mem_nil (hp ▸ hs)
    rw [box_eq h, box_eq hq, hp, hnil]
    exact ⟨by decide +kernel, by decide +kernel, by decide +kernel, by decide +kernel⟩
  · have hq' : q.pointed ≠ [] := by
      obtain ⟨s, hs⟩ := List.exists_mem_of_ne_nil _ hp
      obtain ⟨t, ht, -⟩ := hnext s hs
      exact List.ne_nil_of_mem ht
    have hsame {s t : Stroke} (hs : s ∈ p.pointed) (hst : s.Reordered t) : s.box.SameSides t.box :=
      hst.sameSides_box (h s (mem_pointed.mp hs).1) (mem_pointed.mp hs).2
    refine (isHull_box h hp).sameSides (isHull_box hq hq') ?_ ?_
    · refine List.forall_mem_map.mpr fun s hs => ?_
      obtain ⟨t, ht, hst⟩ := hnext s hs
      exact ⟨t.box, List.mem_map_of_mem ht, hsame hs hst⟩
    · refine List.forall_mem_map.mpr fun t ht => ?_
      obtain ⟨s, hs, hst⟩ := hback t ht
      exact ⟨s.box, List.mem_map_of_mem hs, hsame hs hst⟩

/-- The box of a picture is the tightest one around its strokes. Take finite points, and widths that are
numbers. The box is valid exactly when some stroke has a point. The points of a stroke have the
tightest box around them, and so do the boxes of the strokes that have points, which alone count. The
box of two pictures put together is the union of theirs. The order of strokes and points does not
matter, but for the signs of zeros. -/
theorem box_tight (p : Picture) (h : p.IsMeasured) :
    (p.box.isValid ↔ ∃ s ∈ p.strokes, s.points ≠ []) ∧
      (∀ s ∈ p.strokes, s.points ≠ [] → s.pathBox.IsHull (s.points.map Point.box)) ∧
      (p.pointed ≠ [] → p.box.IsHull (p.pointed.map Stroke.box)) ∧
      p.box = (Picture.mk p.pointed).box ∧
      (∀ q : Picture, q.IsMeasured →
        (Picture.mk (p.strokes ++ q.strokes)).box = p.box.union q.box) ∧
      ∀ q, p.Reordered q → p.box.SameSides q.box := by
  refine ⟨?_, fun s hs => Stroke.isHull_pathBox (h s hs), isHull_box h, ?_,
    fun q hq => box_append h hq, fun q hpq => hpq.sameSides_box h⟩
  · rw [isValid_box_iff h, ne_eq, List.eq_nil_iff_forall_not_mem]
    simp only [mem_pointed, not_forall, not_not]
  · have hp : (Picture.mk p.pointed).IsMeasured := fun s hs => h s (mem_pointed.mp hs).1
    have htwice : (Picture.mk p.pointed).pointed = p.pointed := by simp [pointed]
    rw [box_eq h, box_eq hp, htwice]

/-- A thin stroke through zeros of both signs, one without points and a dot, drawn again in another
order. -/
theorem box_tight_zeros :
    let thin : Stroke := ⟨[⟨0, 1⟩, ⟨-0, 2⟩], 0, .black⟩
    let nothing : Stroke := ⟨[], infinity, .black⟩
    let dot : Stroke := ⟨[⟨3, 1⟩], -4, .white⟩
    let p : Picture := ⟨[thin, nothing, dot]⟩
    let q : Picture := ⟨[dot, { thin with points := [⟨-0, 2⟩, ⟨0, 1⟩] }, nothing]⟩
    p.IsMeasured ∧ p.box.isValid ∧ p.box.IsHull [thin.box, dot.box] ∧
      p.box = (Picture.mk [thin, dot]).box ∧
      (Picture.mk (p.strokes ++ [nothing])).box = p.box.union (Picture.mk [nothing]).box ∧
      p.Reordered q ∧ p.box.SameSides q.box ∧ p.box.left.toBits ≠ q.box.left.toBits := by
  intro thin nothing dot p q
  have hthin : thin.IsMeasured := ⟨by simp only [thin]; decide +kernel, by decide +kernel⟩
  have hnothing : nothing.IsMeasured := ⟨nofun, by decide +kernel⟩
  have hdot : dot.IsMeasured := ⟨by simp only [dot]; decide +kernel, by decide +kernel⟩
  have hp : p.IsMeasured := by
    simp only [IsMeasured, p, List.forall_mem_cons]
    exact ⟨hthin, hnothing, hdot, nofun⟩
  have hpq : p.Reordered q :=
    ⟨[dot, thin, nothing], List.perm_append_singleton dot [thin, nothing],
      .cons ⟨.refl _, rfl⟩ (.cons ⟨.swap _ _ _, rfl⟩ (.cons ⟨.refl _, rfl⟩ .nil))⟩
  obtain ⟨hvalid, -, hhull, hsame, happend, horder⟩ := box_tight p hp
  exact ⟨hp, hvalid.mpr ⟨thin, List.mem_cons_self, nofun⟩, hhull nofun, hsame,
    happend ⟨[nothing]⟩ (List.forall_mem_singleton.mpr hnothing), hpq, horder q hpq,
    by decide +kernel⟩

end Picture
end Lindenmayer
