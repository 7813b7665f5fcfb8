import Lindenmayer.Grammar.Expand
import Lindenmayer.System.Condense
import Lindenmayer.Turtle.Run

/-! Systems: a grammar, its numbers and the meaning of its symbols, put together once and used for any
number of drawings. -/
namespace Lindenmayer

/-- A grammar with a meaning. The warnings are those of the bindings that name no action. -/
structure System where
  grammar : Grammar
  interpreter : Interpreter
  warnings : List Fault

structure Plan where
  passes : Passes
  pose : Pose
  condense : Bool

namespace System

/-- The system of these parts, unless a number is out of range. -/
def build (g : Grammar) (p : Params) (bindings : List (Char × NamedAction)) :
    Except Fault System :=
  match p.fault? with
  | some cause => .error (.of cause)
  | none =>
    let (b, warnings) := Bindings.standard.extend bindings
    .ok ⟨g, ⟨b, p⟩, warnings⟩

def condensation (s : System) : Rules := s.grammar.condensation s.interpreter.bindings

def produce {ρ : Type} [WordSource ρ] (s : System) (plan : Plan) (source : ρ) :
    Except Fault (Word × ρ) :=
  match s.grammar.expand plan.passes source with
  | .error f => .error f
  | .ok (w, source) => .ok (if plan.condense then s.condensation.apply w else w, source)

/-- The drawing of a plan: the result, and the surface as it is left. -/
def draw {ρ σ : Type} [WordSource ρ] [Surface σ] (s : System) (plan : Plan)
    (hooks : List (Hook σ)) (surface : σ) (source : ρ) : Except Fault Cursor × σ :=
  match s.produce plan source with
  | .error f => (.error f, surface)
  | .ok (w, _) =>
    let r := s.interpreter.run hooks plan.pose w surface
    (r.result, r.turtle.surface)

end System
end Lindenmayer
