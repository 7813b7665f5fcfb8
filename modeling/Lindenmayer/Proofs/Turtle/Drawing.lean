import Lindenmayer.Proofs.Turtle.Decoration
import Lindenmayer.Proofs.Turtle.Stance

/-! Turtles on canvases. Cursor and canvas stay in step, and the picture of a run has one segment
for each step that draws. -/
namespace Lindenmayer
open Surface

/-- A pen in step with a cursor. The widths are one number, but not always one double: a pen does
not take over a width that equals its own. -/
structure Pen.Follows (p : Pen) (c : Cursor) : Prop where
  position : p.position = c.position
  heading : p.heading = c.heading
  isDown : p.isDown = c.penDown
  width : SameNumber p.width c.penWidth

theorem Pen.follows_iff_matches {p : Pen} {c : Cursor} :
    p.Follows c ↔ p.stance.Matches SameNumber c.stance :=
  ⟨fun ⟨hp, hh, hd, hw⟩ => ⟨hp, hh, hd, hw⟩, fun ⟨hp, hh, hd, hw⟩ => ⟨hp, hh, hd, hw⟩⟩

/-- A step that draws gives one segment, from the place of the cursor to the next one. No other step
gives any. -/
private theorem Pen.Follows.marks_step {pen : Pen} {c : Cursor} (h : pen.Follows c) {p : Params}
    {stack : Stack} {a : Action} {e : Effect} (he : c.step p stack a = .ok e) :
    pen.marks e.commands =
      if a.isDraw then [⟨c.position, e.cursor.position, pen.width, pen.color⟩] else [] := by
  cases a with
  | draw _ => cases he; simp [Pen.marks, Pen.mark?, Pen.follow, Action.isDraw, h.position]
  | pop =>
    cases stack with
    | nil => cases he
    | cons s rest => cases he; rfl
  | _ => cases he; rfl

namespace Turtle

/-- Cursor and canvas agree. -/
def Synced (t : Turtle Canvas) : Prop := t.surface.pen.Follows t.cursor

theorem synced_iff_agrees {t : Turtle Canvas} :
    t.Synced ↔ t.Agrees Canvas.penDown SameNumber :=
  Pen.follows_iff_matches

theorem synced_start (p : Params) (pose : Pose) (c : Canvas) : (start p pose c).Synced :=
  synced_iff_agrees.mpr (agrees_start Canvas.keeps SameNumber.refl p pose c)

theorem Synced.observe {t : Turtle Canvas} (h : t.Synced) {hooks : List (Hook Canvas)}
    (hc : ∀ k ∈ hooks, k.IsCosmetic) (n : Nat) (c : Char) : (t.observe hooks n c).Synced := by
  have hi : ∀ k ∈ hooks, k.IsCosmeticThrough (id : Canvas → Canvas) := hc
  have hbare := Canvas.keeps.bare_hook SameNumber.refl hi
  exact synced_iff_agrees.mpr ((synced_iff_agrees.mp h).observe SameNumber.refl hbare n c)

theorem Synced.act {t next : Turtle Canvas} (h : t.Synced) {p : Params} {a : Action}
    (ha : t.act p a = .ok next) : next.Synced :=
  synced_iff_agrees.mpr ((synced_iff_agrees.mp h).act Canvas.keeps ha)

theorem coherent_start (p : Params) (pose : Pose) {c : Canvas} (h : c.Coherent) :
    (start p pose c).surface.Coherent :=
  h.performAll _

private theorem coherent_observe {t : Turtle Canvas} (h : t.surface.Coherent)
    {hooks : List (Hook Canvas)} (hc : ∀ k ∈ hooks, k.IsCosmetic) (n : Nat) (c : Char) :
    (t.observe hooks n c).surface.Coherent := by
  obtain ⟨ms, _, he⟩ := surface_observe_cosmetic hc n c t
  rw [he]
  exact h.performAll ms

private theorem coherent_act {t next : Turtle Canvas} (h : t.surface.Coherent) {p : Params}
    {a : Action} (ha : t.act p a = .ok next) : next.surface.Coherent := by
  obtain ⟨e, _, rfl⟩ := act_eq_ok_iff.mp ha
  exact h.performAll e.commands

/-- Cosmetic hooks leave the picture as it is. -/
theorem picture_observe {hooks : List (Hook Canvas)} (hc : ∀ k ∈ hooks, k.IsCosmetic) (n : Nat)
    (c : Char) (t : Turtle Canvas) :
    (t.observe hooks n c).surface.picture = t.surface.picture := by
  obtain ⟨ms, hm, he⟩ := surface_observe_cosmetic hc n c t
  rw [he, Canvas.picture_performAll_cosmetic _ hm]

private theorem marks_act {t next : Turtle Canvas} (hs : t.Synced) (hc : t.surface.Coherent)
    {p : Params} {a : Action} (ha : t.act p a = .ok next) :
    next.surface.picture.marks = t.surface.picture.marks ++
      if a.isDraw then
        [⟨t.cursor.position, next.cursor.position, t.surface.penWidth, t.surface.color⟩]
      else [] := by
  obtain ⟨e, he, rfl⟩ := act_eq_ok_iff.mp ha
  rw [Canvas.marks_performAll hc, hs.marks_step he]
  rfl

end Turtle

/-- The segment of a step that draws: between the places of the cursor, and with the looks that the
canvas has after the hooks. -/
def Step.mark (s : Step Canvas) : Mark :=
  ⟨s.before.cursor.position, s.after.cursor.position, s.before.surface.penWidth,
    s.before.surface.color⟩

namespace Interpreter

/-- A run adds a segment for each of its steps that draws, in order, and it adds nothing else. The
width of each is that of the cursor. -/
theorem marks_walk (i : Interpreter) {hooks : List (Hook Canvas)} (hk : ∀ k ∈ hooks, k.IsCosmetic)
    (n : Nat) (w : Word) {t : Turtle Canvas} (hs : t.Synced) (hc : t.surface.Coherent) :
    let drawing := (i.steps hooks n w t).filter fun s => (i.bindings.action s.symbol).isDraw
    (i.walk hooks n w t).turtle.surface.picture.marks =
      t.surface.picture.marks ++ drawing.map Step.mark ∧
    ∀ s ∈ drawing, SameNumber s.mark.width s.before.cursor.penWidth := by
  induction w generalizing n t with
  | nil => simp [walk, steps]
  | cons c cs ih =>
    have hso := hs.observe hk n c
    have hco := Turtle.coherent_observe hc hk n c
    have hp := Turtle.picture_observe hk n c t
    cases ha : (t.observe hooks n c).act i.params (i.bindings.action c) with
    | error f =>
      rw [walk_cons_of_error ha, steps_cons_of_error ha, hp]
      simp
    | ok next =>
      obtain ⟨hm, hw⟩ := ih (n + 1) (hso.act ha) (Turtle.coherent_act hco ha)
      have hn := Turtle.marks_act hso hco ha
      rw [hp] at hn
      rw [walk_cons_of_ok ha, steps_cons_of_ok ha]
      cases hd : (i.bindings.action c).isDraw with
      | false =>
        simp only [hd, Bool.false_eq_true, if_false, List.append_nil] at hn
        simp only [List.filter_cons, hd, Bool.false_eq_true, if_false]
        exact ⟨hn ▸ hm, hw⟩
      | true =>
        simp only [hd, if_true] at hn
        simp only [List.filter_cons, hd, if_true, List.map_cons, List.forall_mem_cons]
        refine ⟨?_, hso.width, hw⟩
        rw [hm, hn, List.append_assoc]
        rfl

/-- The picture of a run with decorations on an empty canvas. The steps are the symbols up to the
end of the word or up to the first that fails, each from the state that the run of the symbols
before it leaves. The segments are those of the steps that draw, in order: each lies between the
places of the cursor before and after the step, in the color that the canvas has after the
decorations and in a width that is the number of the cursor. -/
theorem picture_run (i : Interpreter) (decorations : List Decoration) (pose : Pose) (w : Word)
    (width : Float) (color : Color) :
    let hooks := decorations.map Decoration.hook
    let start := Turtle.start i.params pose (Canvas.blank width color)
    let run := i.run hooks pose w (Canvas.blank width color)
    let steps := i.steps hooks 0 w start
    let drawing := steps.filter fun s => (i.bindings.action s.symbol).isDraw
    steps.map Step.symbol = w.take steps.length ∧
    (run.fault = none ∧ steps.length = w.length ∨
      run.fault = some ⟨.nothingSaved, some steps.length, .fatal⟩) ∧
    (∀ (k : Nat) s, steps[k]? = some s →
      s.before =
        (i.run hooks pose (w.take k) (.blank width color)).turtle.observe hooks k s.symbol ∧
      s.after = (i.run hooks pose (w.take (k + 1)) (.blank width color)).turtle) ∧
    run.turtle.surface.picture.marks = drawing.map Step.mark ∧
    (∀ s ∈ drawing, SameNumber s.mark.width s.before.cursor.penWidth) ∧
    run.turtle.surface.picture.segmentCount =
      (w.take steps.length).countP fun c => (i.bindings.action c).isDraw := by
  intro hooks start run steps drawing
  have hk : ∀ k ∈ hooks, k.IsCosmetic := Decoration.isCosmetic_hooks decorations
  have hc := Canvas.coherent_blank width color
  have hw : steps.map Step.symbol = w.take steps.length := symbols_steps i hooks 0 w start
  obtain ⟨hm, hn⟩ := i.marks_walk hk 0 w (Turtle.synced_start i.params pose (.blank width color))
    (Turtle.coherent_start i.params pose hc)
  have he : start.surface.picture.marks = [] := Canvas.marks_performAll hc _
  change run.turtle.surface.picture.marks = start.surface.picture.marks ++ _ at hm
  rw [he, List.nil_append] at hm
  have hf := fault_walk i hooks 0 w start
  rw [Nat.zero_add] at hf
  have hs : ∀ (k : Nat) s, steps[k]? = some s → _ := fun _ _ h => states_of_getElem?_steps h
  simp only [Nat.zero_add] at hs
  refine ⟨hw, hf, hs, hm, hn, ?_⟩
  rw [← Picture.length_marks, hm, List.length_map, ← List.countP_eq_length_filter, ← hw,
    List.countP_map]
  rfl

end Interpreter
end Lindenmayer
