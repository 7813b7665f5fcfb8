import Lindenmayer.Proofs.Turtle.Pen
import Lindenmayer.Turtle.Canvas

/-! Canvases against their pens: the picture of a canvas holds the segments that the pen draws, each
once and with its looks, in strokes that are as long as they can be. -/
namespace Lindenmayer.Canvas
open Surface

/-- What shows of a canvas apart from its picture. -/
def pen (c : Canvas) : Pen := ⟨c.position, c.heading, c.penDown, c.penWidth, c.color⟩

@[simp] theorem perform_eq (c : Canvas) (m : Command) : Surface.perform c m = c.perform m := rfl

/-- What every command keeps. A finished stroke has a segment; the points of the one being drawn
are none, or two at least and end where the pen is; with the pen up none is being drawn. -/
structure Coherent (c : Canvas) : Prop where
  finished : ∀ s ∈ c.finished, 2 ≤ s.points.length
  points : c.points = [] ∨ ∃ p ps, c.points = c.position :: p :: ps
  lifted : c.penDown = false → c.points = []

@[simp] theorem points_flush (c : Canvas) : c.flush.points = [] := by
  unfold flush; split <;> rfl

@[simp] theorem position_flush (c : Canvas) : c.flush.position = c.position := by
  unfold flush; split <;> rfl

@[simp] theorem heading_flush (c : Canvas) : c.flush.heading = c.heading := by
  unfold flush; split <;> rfl

@[simp] theorem penDown_flush (c : Canvas) : c.flush.penDown = c.penDown := by
  unfold flush; split <;> rfl

@[simp] theorem penWidth_flush (c : Canvas) : c.flush.penWidth = c.penWidth := by
  unfold flush; split <;> rfl

@[simp] theorem color_flush (c : Canvas) : c.flush.color = c.color := by
  unfold flush; split <;> rfl

theorem flush_of_points_nil {c : Canvas} (h : c.points = []) : c.flush = c := by
  obtain ⟨finished, points, position, heading, penDown, penWidth, color⟩ := c
  obtain rfl : points = [] := h
  rfl

theorem picture_eq_of_finished {c d : Canvas} (hp : d.points = [])
    (hf : d.finished = c.flush.finished) : d.picture = c.picture := by
  rw [picture, picture, flush_of_points_nil hp, hf]

/-- The picture of a canvas is its finished strokes and the one of the points, if it has a
segment. -/
theorem strokes_picture (c : Canvas) :
    c.picture.strokes = c.finished.reverse ++
      if 2 ≤ c.points.length then [⟨c.points.reverse, c.penWidth, c.color⟩] else [] := by
  obtain ⟨finished, points, position, heading, penDown, penWidth, color⟩ := c
  match points with
  | [] => simp [picture, flush]
  | [_] => simp [picture, flush]
  | _ :: _ :: _ => simp [picture, flush]

theorem coherent_blank (width : Float) (color : Color) : (blank width color).Coherent :=
  ⟨by simp [blank], .inl rfl, fun _ => rfl⟩

private theorem Coherent.finished_flush {c : Canvas} (h : c.Coherent) :
    ∀ s ∈ c.flush.finished, 2 ≤ s.points.length := by
  unfold flush
  split
  · rename_i q p ps hp
    intro s hs
    rcases List.mem_cons.mp hs with rfl | hs
    · simp [hp]
    · exact h.finished s hs
  · exact h.finished

private theorem Coherent.of_finished {c d : Canvas} (h : c.Coherent) (hp : d.points = [])
    (hf : d.finished = c.flush.finished) : d.Coherent :=
  ⟨hf ▸ h.finished_flush, .inl hp, fun _ => hp⟩

/-- What a command does to a canvas. It draws a segment, or it leaves no stroke open, or it changes
nothing of the strokes and of the looks. -/
theorem perform_cases (c : Canvas) (m : Command) :
    (∃ q, m = .lineTo q ∧ c.penDown = true ∧
      c.perform m =
        { c with
          points := q :: (if c.points.isEmpty then [c.position] else c.points), position := q }) ∨
    c.pen.mark? m = none ∧
      ((c.pen.breaks m || !c.penDown) = true ∧
        (c.perform m).points = [] ∧ (c.perform m).finished = c.flush.finished ∨
      c.pen.breaks m = false ∧ ∃ heading penDown, (penDown = false → c.penDown = false) ∧
        c.perform m = { c with heading := heading, penDown := penDown }) := by
  cases m with
  | moveTo q => exact .inr ⟨rfl, .inl ⟨rfl, points_flush c, rfl⟩⟩
  | penUp => exact .inr ⟨rfl, .inl ⟨rfl, points_flush c, rfl⟩⟩
  | setHeading h => exact .inr ⟨rfl, .inr ⟨rfl, h, c.penDown, id, rfl⟩⟩
  | penDown => exact .inr ⟨rfl, .inr ⟨rfl, c.heading, true, nofun, rfl⟩⟩
  | lineTo q =>
    cases hd : c.penDown with
    | true => exact .inl ⟨q, rfl, rfl, by simp [perform, hd]⟩
    | false => exact .inr ⟨by simp [Pen.mark?, pen, hd], .inl (by simp [perform, hd])⟩
  | setPenWidth w =>
    refine .inr ⟨rfl, ?_⟩
    cases hw : w == c.penWidth with
    | true =>
      refine .inr ⟨?_, c.heading, c.penDown, id, by simp [perform, hw]⟩
      simp [Pen.breaks, pen, bne, hw]
    | false => exact .inl (by simp [Pen.breaks, perform, pen, bne, hw])
  | setColor k =>
    refine .inr ⟨rfl, ?_⟩
    cases hk : k == c.color with
    | true =>
      refine .inr ⟨?_, c.heading, c.penDown, id, by simp [perform, hk]⟩
      simp [Pen.breaks, pen, bne, hk]
    | false => exact .inl (by simp [Pen.breaks, perform, pen, bne, hk])

theorem Coherent.perform {c : Canvas} (h : c.Coherent) (m : Command) : (c.perform m).Coherent := by
  rcases c.perform_cases m with ⟨q, _, hd, he⟩ | ⟨_, ⟨_, hp, hf⟩ | ⟨_, heading, penDown, hd, he⟩⟩
  · rw [he]
    refine ⟨h.finished, .inr ?_, fun hu => absurd (hd.symm.trans hu) (by decide)⟩
    rcases h.points with hp | ⟨p, ps, hp⟩
    · exact ⟨c.position, [], by simp [hp]⟩
    · exact ⟨c.position, p :: ps, by simp [hp]⟩
  · exact h.of_finished hp hf
  · rw [he]
    exact ⟨h.finished, h.points, fun hu => h.lifted (hd hu)⟩

theorem Coherent.performAll {c : Canvas} (h : c.Coherent) (ms : List Command) :
    (Surface.performAll c ms).Coherent := by
  induction ms generalizing c with
  | nil => exact h
  | cons m ms ih => exact ih (h.perform m)

theorem pen_perform (c : Canvas) (m : Command) : (c.perform m).pen = c.pen.follow m := by
  cases m with
  | lineTo q => cases hd : c.penDown <;> simp [Canvas.perform, pen, Pen.follow, hd]
  | setPenWidth w =>
    cases hw : w == c.penWidth <;> simp [Canvas.perform, pen, Pen.follow, adopt, hw]
  | setColor k => cases hk : k == c.color <;> simp [Canvas.perform, pen, Pen.follow, adopt, hk]
  | _ => simp [Canvas.perform, pen, Pen.follow]

theorem pen_performAll (c : Canvas) (ms : List Command) :
    (performAll c ms).pen = c.pen.followAll ms := by
  induction ms generalizing c with
  | nil => rfl
  | cons m ms ih => rw [performAll_cons, perform_eq, ih, pen_perform, Pen.followAll_cons]

/-- A command that draws no segment leaves the picture as it is. -/
theorem picture_perform {c : Canvas} {m : Command} (h : c.pen.mark? m = none) :
    (c.perform m).picture = c.picture := by
  rcases c.perform_cases m with ⟨q, rfl, hd, _⟩ | ⟨_, ⟨_, hp, hf⟩ | ⟨_, heading, penDown, _, he⟩⟩
  · simp [Pen.mark?, pen, hd] at h
  · exact picture_eq_of_finished hp hf
  · have hs : (c.perform m).picture.strokes = c.picture.strokes := by
      rw [strokes_picture, strokes_picture, he]
    exact congrArg Picture.mk hs

/-- A line with the pen down starts a stroke, or it lengthens the last one by a point. -/
private theorem strokes_lineTo {c : Canvas} (h : c.Coherent) (hd : c.penDown = true) (q : Point) :
    c.points = [] ∧ (c.perform (.lineTo q)).picture.strokes =
      c.picture.strokes ++ [⟨[c.position, q], c.penWidth, c.color⟩] ∨
    c.points ≠ [] ∧ ∃ strokes ps p,
      c.picture.strokes = strokes ++ [⟨ps ++ [p, c.position], c.penWidth, c.color⟩] ∧
      (c.perform (.lineTo q)).picture.strokes =
        strokes ++ [⟨ps ++ [p, c.position, q], c.penWidth, c.color⟩] := by
  rcases h.points with hp | ⟨p, ps, hp⟩
  · refine .inl ⟨hp, ?_⟩
    simp [strokes_picture, perform, hd, hp]
  · refine .inr ⟨by simp [hp], c.finished.reverse, ps.reverse, p, ?_, ?_⟩
    · simp [strokes_picture, hp]
    · simp [strokes_picture, perform, hd, hp]

/-- A command adds the segment it draws to the picture, and nothing else. -/
theorem marks_perform {c : Canvas} (h : c.Coherent) (m : Command) :
    (c.perform m).picture.marks = c.picture.marks ++ (c.pen.mark? m).toList := by
  cases hm : c.pen.mark? m with
  | none => simp [picture_perform hm]
  | some mark =>
    obtain ⟨hd, q, rfl, rfl⟩ := Pen.mark?_eq_some_iff.mp hm
    rcases strokes_lineTo h hd q with ⟨_, he⟩ | ⟨_, strokes, ps, p, hs, he⟩
    · simp [Picture.marks, he, Stroke.marks_pair, pen]
    · have hc := Stroke.marks_concat (ps ++ [p]) c.position q c.penWidth c.color
      simp only [List.append_assoc, List.cons_append, List.nil_append] at hc
      simp [Picture.marks, hs, he, hc, pen]

/-- A segment goes on from another one exactly when a stroke is open at its command. -/
private theorem joins_perform {c : Canvas} (h : c.Coherent) (m : Command) :
    (c.perform m).picture.joins =
      c.picture.joins ++ (c.pen.mark? m).toList.map fun _ => !c.points.isEmpty := by
  cases hm : c.pen.mark? m with
  | none => simp [picture_perform hm]
  | some mark =>
    obtain ⟨hd, q, rfl, _⟩ := Pen.mark?_eq_some_iff.mp hm
    rcases strokes_lineTo h hd q with ⟨hp, he⟩ | ⟨hp, strokes, ps, p, hs, he⟩
    · simp [Picture.joins, hp, he, Stroke.joins_pair]
    · have hj := Stroke.joins_concat ps p c.position q c.penWidth c.color
      simp [Picture.joins, hp, hs, he, hj]

theorem marks_performAll {c : Canvas} (h : c.Coherent) (ms : List Command) :
    (performAll c ms).picture.marks = c.picture.marks ++ c.pen.marks ms := by
  induction ms generalizing c with
  | nil => simp [Pen.marks]
  | cons m ms ih =>
    rw [performAll_cons, perform_eq, ih (h.perform m), marks_perform h, pen_perform, Pen.marks,
      List.append_assoc]

/-- For each segment that some commands draw, whether a stroke is open at its command. -/
private def goesOn (c : Canvas) : List Command → List Bool
  | [] => []
  | m :: ms => ((c.pen.mark? m).toList.map fun _ => !c.points.isEmpty) ++ (c.perform m).goesOn ms

private theorem joins_performAll {c : Canvas} (h : c.Coherent) (ms : List Command) :
    (performAll c ms).picture.joins = c.picture.joins ++ c.goesOn ms := by
  induction ms generalizing c with
  | nil => simp [goesOn]
  | cons m ms ih =>
    rw [performAll_cons, perform_eq, ih (h.perform m), joins_perform h, goesOn, List.append_assoc]

private theorem goesOn_append (c : Canvas) (ms ns : List Command) :
    c.goesOn (ms ++ ns) = c.goesOn ms ++ (performAll c ms).goesOn ns := by
  induction ms generalizing c with
  | nil => rfl
  | cons m ms ih => simp [goesOn, ih]

private theorem length_goesOn (c : Canvas) (ms : List Command) :
    (c.goesOn ms).length = (c.pen.marks ms).length := by
  induction ms generalizing c with
  | nil => rfl
  | cons m ms ih => simp [goesOn, Pen.marks, ih, pen_perform]

private theorem isEmpty_points_perform {c : Canvas} (h : c.Coherent) {m : Command}
    (hm : c.pen.mark? m = none) :
    (c.perform m).points.isEmpty = (c.points.isEmpty || c.pen.breaks m) := by
  rcases c.perform_cases m with ⟨q, rfl, hd, _⟩ | ⟨_, ⟨hb, hp, _⟩ | ⟨hb, heading, penDown, _, he⟩⟩
  · simp [Pen.mark?, pen, hd] at hm
  · rw [hp]
    rcases Bool.or_eq_true_iff.mp hb with hb | hd
    · rw [hb, Bool.or_true, List.isEmpty_nil]
    · rw [h.lifted (by simpa using hd), List.isEmpty_nil, Bool.true_or]
  · rw [he, hb, Bool.or_false]

/-- While nothing is drawn, an open stroke stays open until a command ends it. -/
private theorem isEmpty_points_performAll {c : Canvas} (h : c.Coherent) {ms : List Command}
    (hm : c.pen.marks ms = []) :
    (performAll c ms).points.isEmpty = (c.points.isEmpty || c.pen.breaksIn ms) := by
  induction ms generalizing c with
  | nil => simp [Pen.breaksIn]
  | cons m ms ih =>
    obtain ⟨hn, hs⟩ := List.append_eq_nil_iff.mp hm
    have hp := isEmpty_points_perform h (Option.toList_eq_nil_iff.mp hn)
    rw [← pen_perform] at hs
    rw [performAll_cons, perform_eq, ih (h.perform m) hs, hp, Pen.breaksIn, pen_perform,
      Bool.or_assoc]

private theorem goesOn_lineTo {c : Canvas} (hd : c.penDown = true) (q : Point) (ms : List Command) :
    c.goesOn (.lineTo q :: ms) = (!c.points.isEmpty) :: (c.perform (.lineTo q)).goesOn ms := by
  simp [goesOn, Pen.mark?, pen, hd]

/-- Of two segments drawn one after the other, the second goes on from the first exactly when no
command between them ends the stroke. -/
private theorem goesOn_between {c : Canvas} (h : c.Coherent) (p q : Point)
    (between after : List Command) (hd : c.penDown = true)
    (hb : (c.perform (.lineTo p)).pen.marks between = [])
    (hn : ((c.perform (.lineTo p)).pen.followAll between).isDown = true) :
    (c.goesOn (.lineTo p :: (between ++ .lineTo q :: after)))[1]? =
      some (!(c.perform (.lineTo p)).pen.breaksIn between) := by
  have hk := h.perform (.lineTo p)
  have ho : (c.perform (.lineTo p)).points.isEmpty = false := by simp [Canvas.perform, hd]
  have he : (c.perform (.lineTo p)).goesOn between = [] := by
    rw [← List.length_eq_zero_iff, length_goesOn, hb, List.length_nil]
  have hl : (performAll (c.perform (.lineTo p)) between).penDown = true := by
    rw [← pen_performAll] at hn
    exact hn
  rw [goesOn_lineTo hd, goesOn_append, he, List.nil_append, goesOn_lineTo hl,
    isEmpty_points_performAll hk hb, ho, Bool.false_or]
  rfl

/-- The picture of any commands on an empty canvas. Its segments are those that the pen draws, in
order and each once, from where the pen was and with the width and the color it had; each stroke has
a segment; and two segments drawn one after the other are of one stroke exactly when there is no
move, no lift and no new width or color between them. -/
theorem picture_performAll_blank (width : Float) (color : Color) (commands : List Command) :
    let start := blank width color
    let final := performAll start commands
    final.pen = start.pen.followAll commands ∧
    final.picture.marks = start.pen.marks commands ∧
    (∀ s ∈ final.picture.strokes, 2 ≤ s.points.length) ∧
    ∀ before p between q after,
      commands = before ++ .lineTo p :: (between ++ .lineTo q :: after) →
      let pen := start.pen.followAll before
      let next := pen.follow (.lineTo p)
      pen.isDown = true → next.marks between = [] → (next.followAll between).isDown = true →
      (final.picture.Joined (start.pen.marks before).length ↔ next.breaksIn between = false) := by
  intro start final
  have h : start.Coherent := coherent_blank width color
  refine ⟨pen_performAll start commands, ?_, ?_, ?_⟩
  · exact marks_performAll h commands
  · intro s hs
    have hf : final.Coherent := h.performAll commands
    exact hf.finished_flush s (List.mem_reverse.mp hs)
  · intro before p between q after he pen next hd hb hn
    let c := performAll start before
    have hc : c.Coherent := h.performAll before
    have hp : c.pen = pen := pen_performAll start before
    have hx : (c.perform (.lineTo p)).pen = next := by rw [pen_perform, hp]
    have hj : final.picture.joins = start.goesOn before ++
        c.goesOn (.lineTo p :: (between ++ .lineTo q :: after)) := by
      rw [← goesOn_append, ← he]
      exact joins_performAll h commands
    have hl : (start.goesOn before).length = (start.pen.marks before).length :=
      length_goesOn start before
    have hs := goesOn_between hc p q between after (by rw [← hp] at hd; exact hd)
      (by rw [hx]; exact hb) (by rw [hx]; exact hn)
    rw [Picture.joined_iff, hj, List.getElem?_append_right (by omega), hl,
      Nat.add_sub_cancel_left, hs, hx]
    simp

/-- Two lines with a wider pen for the second are two strokes, and with the same width one. -/
theorem wider_pen_starts_stroke :
    let pen := (blank 1 .black).pen.follow (.lineTo ⟨1, 0⟩)
    (pen.marks [.setPenWidth 2] = [] ∧ pen.marks [.setPenWidth 1] = []) ∧
    ¬ (performAll (blank 1 .black)
      [.lineTo ⟨1, 0⟩, .setPenWidth 2, .lineTo ⟨2, 0⟩]).picture.Joined 0 ∧
    (performAll (blank 1 .black)
      [.lineTo ⟨1, 0⟩, .setPenWidth 1, .lineTo ⟨2, 0⟩]).picture.Joined 0 := by
  refine ⟨⟨rfl, rfl⟩, ?_, ?_⟩
  · have h := (picture_performAll_blank 1 .black _).2.2.2 [] ⟨1, 0⟩ [.setPenWidth 2] ⟨2, 0⟩ []
      rfl rfl rfl rfl
    exact fun hj => absurd (h.mp hj) (by decide)
  · have h := (picture_performAll_blank 1 .black _).2.2.2 [] ⟨1, 0⟩ [.setPenWidth 1] ⟨2, 0⟩ []
      rfl rfl rfl rfl
    exact h.mpr (by decide)

end Lindenmayer.Canvas
