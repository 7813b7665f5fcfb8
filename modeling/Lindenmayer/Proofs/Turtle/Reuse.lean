import Lindenmayer.Proofs.Turtle.Decoration

/-! Canvases that are used again. A run sets out from a place, a heading and a pen width of its own,
so that of an earlier drawing it finds nothing but finished strokes, and these it leaves as they
are. -/
namespace Lindenmayer
open Surface

section Maps
variable {σ τ : Type} [Surface σ] [Surface τ]

/-- A map of surfaces that goes along with every command and keeps the pen width. -/
structure Surface.Carries (f : σ → τ) : Prop where
  perform : ∀ s m, perform (f s) m = f (perform s m)
  penWidth : ∀ s, penWidth (f s) = penWidth s

variable {f : σ → τ}

theorem Surface.Carries.performAll (h : Carries f) (s : σ) (ms : List Command) :
    performAll (f s) ms = f (performAll s ms) :=
  List.foldl_hom f h.perform

/-- The same turtle on another surface. -/
def Turtle.map (f : σ → τ) (t : Turtle σ) : Turtle τ := ⟨t.cursor, t.stack, f t.surface⟩

/-- Two lists of hooks do the same, one to a surface and the other to its image under a map. -/
structure Hook.Along (f : σ → τ) (hooks : List (Hook σ)) (hooks' : List (Hook τ)) : Prop where
  isEmpty : hooks.isEmpty = hooks'.isEmpty
  round : ∀ m s, hooks'.foldl (fun s hook => hook m s) (f s) =
    f (hooks.foldl (fun s hook => hook m s) s)

theorem Decoration.along_hook (h : Carries f) (ds : List Decoration) :
    Hook.Along f (ds.map hook) (ds.map hook) where
  isEmpty := by rw [List.isEmpty_map, List.isEmpty_map]
  round m s := by
    rw [List.foldl_map, List.foldl_map]
    exact List.foldl_hom f fun s d => h.perform s (d.command m)

namespace Turtle

theorem observe_map (h : Carries f) {hooks : List (Hook σ)} {hooks' : List (Hook τ)}
    (hh : Hook.Along f hooks hooks') (n : Nat) (c : Char) (t : Turtle σ) :
    (t.map f).observe hooks' n c = (t.observe hooks n c).map f := by
  have hround : hooks'.foldl (fun s hook => hook ((t.map f).moment n c) s) (f t.surface) =
      f (hooks.foldl (fun s hook => hook (t.moment n c) s) t.surface) :=
    hh.round (t.moment n c) t.surface
  simp only [observe, ← hh.isEmpty]
  split
  · rfl
  · simp only [map] at hround ⊢
    rw [hround, h.penWidth]

theorem act_map (h : Carries f) (p : Params) (a : Action) (t : Turtle σ) :
    (t.map f).act p a = (t.act p a).map (Turtle.map f) := by
  simp only [act, map]
  cases t.cursor.step p t.stack a with
  | error fault => rfl
  | ok e => simp only [Except.map, h.performAll, map]

end Turtle

/-- A run goes along with a map of its surface, when its hooks do. -/
theorem Interpreter.walk_along (i : Interpreter) (h : Carries f) {hooks : List (Hook σ)}
    {hooks' : List (Hook τ)} (hh : Hook.Along f hooks hooks') (n : Nat) (w : Word) (t : Turtle σ) :
    i.walk hooks' n w (t.map f) =
      let run := i.walk hooks n w t
      ⟨run.turtle.map f, run.fault⟩ := by
  induction w generalizing n t with
  | nil => rfl
  | cons c cs ih =>
    have ho := Turtle.observe_map h hh n c t
    have ha := Turtle.act_map h i.params (i.bindings.action c) (t.observe hooks n c)
    rw [← ho] at ha
    cases hr : (t.observe hooks n c).act i.params (i.bindings.action c) with
    | error fault =>
      rw [hr] at ha
      rw [walk_cons_of_error ha, walk_cons_of_error hr, ho]
    | ok next =>
      rw [hr] at ha
      rw [walk_cons_of_ok ha, walk_cons_of_ok hr, ih]

/-- A run with decorations goes along with a map of its surface. -/
theorem Interpreter.walk_map (i : Interpreter) (h : Carries f) (ds : List Decoration) (n : Nat)
    (w : Word) (t : Turtle σ) :
    i.walk (ds.map Decoration.hook) n w (t.map f) =
      let run := i.walk (ds.map Decoration.hook) n w t
      ⟨run.turtle.map f, run.fault⟩ :=
  i.walk_along h (Decoration.along_hook h ds) n w t

end Maps

namespace Canvas

/-- The canvas with some strokes finished before all of its own, latest first. -/
def onTop (old : List Stroke) (c : Canvas) : Canvas := { c with finished := c.finished ++ old }

theorem flush_onTop (old : List Stroke) (c : Canvas) : (c.onTop old).flush = c.flush.onTop old := by
  obtain ⟨finished, points, position, heading, penDown, penWidth, color⟩ := c
  match points with
  | [] => rfl
  | [_] => rfl
  | _ :: _ :: _ => rfl

theorem picture_onTop (old : List Stroke) (c : Canvas) :
    (c.onTop old).picture.strokes = old.reverse ++ c.picture.strokes := by
  simp only [picture, flush_onTop]
  exact List.reverse_append

/-- No command reaches the strokes that were finished before. -/
theorem carries_onTop (old : List Stroke) : Carries (onTop old) where
  perform c m := by
    -- A command keeps the finished strokes, or it puts the open one before them.
    cases m <;> simp only [perform_eq, perform, flush_onTop, apply_ite (onTop old)] <;> rfl
  penWidth _ := rfl

/-- After a lift, a move and a turn, nothing but the strokes and the looks of the pen is left of what
was there before. -/
theorem performAll_lift_move_turn (c : Canvas) (p : Point) (heading : Float) :
    performAll c [.penUp, .moveTo p, .setHeading heading] =
      ⟨c.flush.finished, [], p, heading, false, c.penWidth, c.color⟩ := by
  have hp : c.perform .penUp = ⟨c.flush.finished, [], c.position, c.heading, false, c.penWidth,
      c.color⟩ := by simp [perform]
  rw [performAll_cons, perform_eq, hp]
  rfl

end Canvas

/-- A run on any canvas starts as one on an empty canvas for the same pen, with the strokes that are
there already before it. -/
theorem Turtle.start_eq_map (p : Params) (pose : Pose) (c : Canvas) :
    start p pose c =
      (start p pose (Canvas.blank c.penWidth c.color)).map (Canvas.onTop c.flush.finished) := by
  let width := pose.penWidth.getD c.penWidth
  let lifted : Canvas := ⟨[], [], pose.position, pose.heading, false, c.penWidth, c.color⟩
  have hopen (d : Canvas) : performAll d (opening pose width) =
      (performAll d [.penUp, .moveTo pose.position, .setHeading pose.heading]).perform
        (.setPenWidth width) := rfl
  have hblank : performAll (Canvas.blank c.penWidth c.color) (opening pose width) =
      lifted.perform (.setPenWidth width) := rfl
  have honTop : performAll c (opening pose width) =
      Canvas.onTop c.flush.finished (lifted.perform (.setPenWidth width)) := by
    rw [hopen, Canvas.performAll_lift_move_turn]
    exact (Canvas.carries_onTop c.flush.finished).perform lifted (.setPenWidth width)
  change (⟨_, [], performAll c (opening pose width)⟩ : Turtle Canvas) =
    ⟨_, [], Canvas.onTop _ (performAll (Canvas.blank c.penWidth c.color) (opening pose width))⟩
  rw [honTop, hblank]
  rfl

/-- An earlier drawing never affects a later one. A run with decorations on any canvas, in the middle
of a stroke or not, has the same result as on an empty canvas for the same pen, and its picture is
that of the canvas before the run, with the strokes of the run on the empty canvas after it. -/
theorem Interpreter.run_reused (i : Interpreter) (decorations : List Decoration) (pose : Pose)
    (w : Word) (canvas : Canvas) :
    let hooks := decorations.map Decoration.hook
    let again := i.run hooks pose w canvas
    let fresh := i.run hooks pose w (.blank canvas.penWidth canvas.color)
    again.result = fresh.result ∧
      again.turtle.surface.picture.strokes =
        canvas.picture.strokes ++ fresh.turtle.surface.picture.strokes := by
  intro hooks again fresh
  have hrun : again = ⟨fresh.turtle.map (Canvas.onTop canvas.flush.finished), fresh.fault⟩ := by
    change i.walk hooks 0 w (.start i.params pose canvas) = _
    rw [Turtle.start_eq_map]
    exact i.walk_map (Canvas.carries_onTop canvas.flush.finished) decorations 0 w _
  rw [hrun]
  exact ⟨rfl, Canvas.picture_onTop canvas.flush.finished fresh.turtle.surface⟩

end Lindenmayer
