import Lindenmayer.Grammar.Basic
import Lindenmayer.Turtle.Action

/-! Condensation: symbols deleted that cannot change the drawing. -/
namespace Lindenmayer

/-- The symbols of a word that do something. -/
def Bindings.drawn (b : Bindings) (w : Word) : Word := w.filter (!b.isNoop ·)

/-- The rule that replaces a key by what it draws, when its production shortens it and draws the
same. A weighted production gives none: its word is not known before a pass. -/
def Bindings.shrinking? (b : Bindings) (rule : Word × Production) : Option (Word × Word) :=
  match rule with
  | (key, .fixed w) =>
    if 2 ≤ key.length ∧ w.length < key.length ∧ b.drawn w = b.drawn key then
      some (key, b.drawn key)
    else none
  | (_, .weighted _) => none

/-- The rules of condensation: symbols of the alphabet that do nothing go, and shrinking keys become
what they draw. Every key holds a symbol that does nothing and no replacement does, so that a second
pass changes nothing. -/
def Grammar.condensation (g : Grammar) (b : Bindings) : Rules :=
  .ofList ((g.alphabet.filter b.isNoop).map (fun c => ([c], [])) ++
    g.rules.filterMap b.shrinking?)

end Lindenmayer
