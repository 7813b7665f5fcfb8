import Lindenmayer.Turtle.Step

/-! Running a word: each symbol is shown to the hooks and then acted on. -/
namespace Lindenmayer

/-- What a hook sees: the symbol that comes next, its index, the cursor, and how many states are
saved. -/
structure Moment where
  symbol : Char
  index : Nat
  cursor : Cursor
  depth : Nat
  deriving Repr, Inhabited

/-- What is done to the surface before a symbol. A hook that remembers something keeps it with the
surface, as a `Noted` one does. -/
abbrev Hook (σ : Type) := Moment → σ → σ

/-- A cursor at work on a surface. -/
structure Turtle (σ : Type) where
  cursor : Cursor
  stack : Stack
  surface : σ

namespace Turtle
variable {σ : Type} [Surface σ]

/-- The commands that bring a surface to the start of a run. -/
def opening (pose : Pose) (penWidth : Float) : List Command :=
  [.penUp, .moveTo pose.position, .setHeading pose.heading, .setPenWidth penWidth]

def start (p : Params) (pose : Pose) (surface : σ) : Turtle σ :=
  let penWidth := pose.penWidth.getD (Surface.penWidth surface)
  ⟨⟨pose.position, pose.heading, false, penWidth, pose.stepLength, p.angle⟩, [],
    Surface.performAll surface (opening pose penWidth)⟩

def moment (t : Turtle σ) (index : Nat) (symbol : Char) : Moment :=
  ⟨symbol, index, t.cursor, t.stack.length⟩

/-- The hooks called in order before a symbol. If there are any, the cursor then takes the pen width
that they leave. -/
def observe (hooks : List (Hook σ)) (index : Nat) (symbol : Char) (t : Turtle σ) : Turtle σ :=
  if hooks.isEmpty then t
  else
    let m := t.moment index symbol
    let surface := hooks.foldl (fun s hook => hook m s) t.surface
    { t with
      cursor := { t.cursor with penWidth := Surface.penWidth surface }
      surface := surface }

def act (p : Params) (action : Action) (t : Turtle σ) : Except Fault (Turtle σ) :=
  match t.cursor.step p t.stack action with
  | .error f => .error f
  | .ok e => .ok ⟨e.cursor, e.stack, Surface.performAll t.surface e.commands⟩

end Turtle

/-- The turtle where a run has stopped, and the fault if it was not at the end of the word. -/
structure Run (σ : Type) where
  turtle : Turtle σ
  fault : Option Fault

/-- The last cursor, or the fault that ended the run. -/
def Run.result {σ : Type} (r : Run σ) : Except Fault Cursor :=
  match r.fault with
  | none => .ok r.turtle.cursor
  | some f => .error f

/-- What the symbols of a system mean: their actions and the numbers that these use. -/
structure Interpreter where
  bindings : Bindings
  params : Params

namespace Interpreter
variable {σ : Type} [Surface σ]

/-- The rest of a word from a symbol index on. A fault of a symbol is fatal: what was drawn before
it stays, and nothing of it is done but the hooks. -/
def walk (i : Interpreter) (hooks : List (Hook σ)) : Nat → Word → Turtle σ → Run σ
  | _, [], t => ⟨t, none⟩
  | n, c :: cs, t =>
    let t := t.observe hooks n c
    match t.act i.params (i.bindings.action c) with
    | .error f => ⟨t, some { f with position := some n, severity := .fatal }⟩
    | .ok next => i.walk hooks (n + 1) cs next

def run (i : Interpreter) (hooks : List (Hook σ)) (pose : Pose) (w : Word) (surface : σ) : Run σ :=
  i.walk hooks 0 w (.start i.params pose surface)

end Interpreter
end Lindenmayer
