import Lindenmayer.Proofs.Turtle.Nesting
import Lindenmayer.Proofs.Turtle.Steps
import Lindenmayer.Turtle.Canvas

/-! Brackets: a balanced word between a symbol that saves and one that takes back. What was saved
comes back unchanged, and the turning angle alone keeps the changes made in between. -/
namespace Lindenmayer

/-- The change that an action makes to the turning angle, if it makes one. -/
def Action.angleChange? : Action → Option Adjustment
  | .angle change => some change
  | _ => none

/-- The changes that a word makes to the turning angle, in order and at any depth of nesting. -/
def Bindings.angleChanges (b : Bindings) (w : Word) : List Adjustment :=
  w.filterMap fun c => (b.action c).angleChange?

/-- A turning angle after some changes in order. -/
def Params.adjustedAngle (p : Params) (angle : Float) (changes : List Adjustment) : Float :=
  changes.foldl (fun angle change => change.apply angle p.angleIncrement p.scaleFactor) angle

variable {σ : Type} [Surface σ]

namespace Turtle
variable {t next : Turtle σ} {p : Params} {a : Action}

@[simp] theorem turningAngle_observe (hooks : List (Hook σ)) (n : Nat) (c : Char) (t : Turtle σ) :
    (t.observe hooks n c).cursor.turningAngle = t.cursor.turningAngle := by
  unfold observe
  split <;> rfl

private theorem turningAngle_act (h : t.act p a = .ok next) :
    next.cursor.turningAngle = p.adjustedAngle t.cursor.turningAngle a.angleChange?.toList := by
  obtain ⟨e, he, rfl⟩ := act_eq_ok_iff.mp h
  cases a with
  | pop =>
    cases hs : t.stack with
    | nil => rw [hs] at he; cases he
    | cons s rest => rw [hs] at he; cases he; rfl
  | _ => cases he; rfl

/-- Taking back the state that was saved last. -/
theorem act_pop (p : Params) {s : Saved} {rest : Stack} (hs : t.stack = s :: rest) :
    t.act p .pop = .ok ⟨{ t.cursor.restore s with penDown := true }, rest,
      Surface.performAll t.surface
        [.penUp, .moveTo s.position, .setHeading s.heading, .setPenWidth s.penWidth,
          .penDown]⟩ := by
  simp only [act, Cursor.step, hs, Stack.pop]

/-- An action for which the states saved on top of others suffice succeeds, and it leaves these
others alone. -/
private theorem exists_act (p : Params) {frames base : Stack} {e : Nat}
    (hs : t.stack = frames ++ base) (ha : a.depth? frames.length = some e) :
    ∃ next frames', t.act p a = .ok next ∧ next.stack = frames' ++ base ∧ frames'.length = e := by
  cases a with
  | push =>
    cases ha
    exact ⟨_, t.cursor.save :: frames, rfl, by rw [hs]; rfl, rfl⟩
  | pop =>
    cases frames with
    | nil => cases ha
    | cons s rest =>
      cases ha
      exact ⟨_, rest, act_pop p hs, rfl, rfl⟩
  | _ => cases ha; exact ⟨_, frames, rfl, hs, rfl⟩

end Turtle

namespace Interpreter
variable {i : Interpreter} {hooks : List (Hook σ)} {n : Nat} {w : Word} {t : Turtle σ}

/-- A run of a word for which the states saved on top of others suffice reaches the end, and it
leaves these others alone. -/
private theorem stack_walk (hooks : List (Hook σ)) (n : Nat) {frames base : Stack} {e : Nat}
    (hs : t.stack = frames ++ base) (hw : i.bindings.depth? frames.length w = some e) :
    (i.walk hooks n w t).fault = none ∧
      ∃ frames', (i.walk hooks n w t).turtle.stack = frames' ++ base ∧ frames'.length = e := by
  induction w generalizing n t frames with
  | nil =>
    cases hw
    exact ⟨rfl, frames, hs, rfl⟩
  | cons c cs ih =>
    rw [Bindings.depth?_cons, Option.bind_eq_some_iff] at hw
    obtain ⟨d, hd, hw⟩ := hw
    have ho : (t.observe hooks n c).stack = frames ++ base := by rw [Turtle.stack_observe, hs]
    obtain ⟨next, frames', ha, hn, hl⟩ := Turtle.exists_act i.params ho hd
    rw [walk_cons_of_ok ha]
    exact ih (n + 1) hn (hl ▸ hw)

/-- The turning angle follows the symbols that change it, whatever is saved and taken back. -/
private theorem turningAngle_walk (h : (i.walk hooks n w t).fault = none) :
    (i.walk hooks n w t).turtle.cursor.turningAngle =
      i.params.adjustedAngle t.cursor.turningAngle (i.bindings.angleChanges w) := by
  induction w generalizing n t with
  | nil => rfl
  | cons c cs ih =>
    cases ha : (t.observe hooks n c).act i.params (i.bindings.action c) with
    | error f =>
      rw [walk_cons_of_error ha] at h
      cases h
    | ok next =>
      rw [walk_cons_of_ok ha] at h ⊢
      rw [ih h, Turtle.turningAngle_act ha, Turtle.turningAngle_observe]
      unfold Bindings.angleChanges Params.adjustedAngle
      rw [← List.foldl_append]
      cases hc : (i.bindings.action c).angleChange? <;> simp [hc]

/-- Brackets around a balanced word. From any state, with any hooks on any surface, the run of them
reaches its end. The cursor is then the one that was saved, except that the pen is down and the
turning angle has taken every change in the word; the saved states are those of before; and the
surface has been told last to go back to what was saved, with the pen down. -/
theorem walk_brackets {opening closing : Char} (ho : i.bindings.action opening = .push)
    (hw : i.bindings.Balanced w) (hc : i.bindings.action closing = .pop) (hooks : List (Hook σ))
    (n : Nat) (t : Turtle σ) :
    let saved := (t.observe hooks n opening).cursor
    let run := i.walk hooks n (opening :: w ++ [closing]) t
    run.fault = none ∧
    run.turtle.cursor = { saved with
      penDown := true
      turningAngle :=
        i.params.adjustedAngle t.cursor.turningAngle (i.bindings.angleChanges w) } ∧
    run.turtle.stack = t.stack ∧
    ∃ surface, run.turtle.surface = Surface.performAll surface
      [.penUp, .moveTo saved.position, .setHeading saved.heading, .setPenWidth saved.penWidth,
        .penDown] := by
  intro saved run
  let opened := t.observe hooks n opening
  let inside : Turtle σ := ⟨saved, saved.save :: t.stack, opened.surface⟩
  have ha : opened.act i.params (i.bindings.action opening) = .ok inside := by
    rw [ho]
    simp only [Turtle.act, Cursor.step, opened, Turtle.stack_observe]
    rfl
  -- The word in between starts on top of what the first bracket saved, with nothing of its own.
  have hinside : inside.stack = [] ++ saved.save :: t.stack := rfl
  obtain ⟨hf, frames, hs, hl⟩ := stack_walk hooks (n + 1) hinside (hw.depth? 0)
  rw [List.length_eq_zero_iff.mp hl, List.nil_append] at hs
  have hangle := turningAngle_walk hf
  let last := (i.walk hooks (n + 1) w inside).turtle.observe hooks (n + 1 + w.length) closing
  have hlast : last.stack = saved.save :: t.stack := by
    rw [Turtle.stack_observe, hs]
  have hp := Turtle.act_pop i.params hlast
  rw [← hc] at hp
  have hrun : run = i.walk hooks (n + 1 + w.length) [closing]
      (i.walk hooks (n + 1) w inside).turtle := by
    rw [← walk_append hf, ← walk_cons_of_ok ha]
    rfl
  rw [hrun, walk_cons_of_ok hp]
  refine ⟨rfl, ?_, rfl, last.surface, rfl⟩
  have hturn : last.cursor.turningAngle =
      i.params.adjustedAngle t.cursor.turningAngle (i.bindings.angleChanges w) := by
    rw [Turtle.turningAngle_observe, hangle]
    exact congrArg (i.params.adjustedAngle · _) (Turtle.turningAngle_observe hooks n opening t)
  rw [← hturn]
  rfl

/-- Brackets within brackets, with a hook that widens the pen before every symbol. -/
theorem walk_brackets_nested :
    let i : Interpreter := ⟨.standard, ⟨90, 2, 1, 0, 15⟩⟩
    let widen : Hook Canvas := fun _ s =>
      Surface.perform s (.setPenWidth (Surface.penWidth s + 1))
    let t : Turtle Canvas := .start i.params .standard .empty
    let w : Word := ['F', ')', '[', '#', '+', ')', 'F', ']', '>']
    i.bindings.Balanced w ∧
      (i.walk [widen] 0 ('[' :: w ++ [']']) t).turtle.cursor =
        { (t.observe [widen] 0 '[').cursor with penDown := true, turningAngle := 120 } := by
  intro i widen t w
  have hw : i.bindings.Balanced w := Bindings.balanced_iff_depth?.mpr rfl
  have hopen : i.bindings.action '[' = .push := rfl
  have hclose : i.bindings.action ']' = .pop := rfl
  have h := (walk_brackets hopen hw hclose [widen] 0 t).2.1
  have hangle : i.params.adjustedAngle t.cursor.turningAngle (i.bindings.angleChanges w) = 120 := by
    decide +kernel
  rw [hangle] at h
  exact ⟨hw, h⟩

end Interpreter
end Lindenmayer
