import Lindenmayer.Grammar.Basic

/-! Expansion: the start word of a grammar changed pass by pass. -/
namespace Lindenmayer

/-- How many passes to run: a given number, or as many as change the word, up to a limit. -/
inductive Passes where
  | exactly (n : Nat)
  | untilStable (limit : Nat)
  deriving Repr, DecidableEq

/-- The limit of passes when a document asks for a stable word. -/
def Passes.limit : Nat := Nat.pow 2 64

namespace Grammar
variable {ρ : Type} [WordSource ρ]

/-- One pass over a word, with replacements chosen for this pass alone. -/
def pass (g : Grammar) (w : Word) (source : ρ) : Except Fault (Word × ρ) :=
  (g.resolve source).map fun (rules, source) => (rules.apply w, source)

def repeated (g : Grammar) : Nat → Word → ρ → Except Fault (Word × ρ)
  | 0, w, source => .ok (w, source)
  | n + 1, w, source =>
    match g.pass w source with
    | .error f => .error f
    | .ok (w, source) => g.repeated n w source

/-- Passes up to the first that changes nothing. The limit is only told when it is used up. -/
def settled (g : Grammar) (limit : Nat) : Nat → Word → ρ → Except Fault (Word × ρ)
  | 0, _, _ => .error (.of (.notStable limit))
  | n + 1, w, source =>
    match g.pass w source with
    | .error f => .error f
    | .ok (next, source) =>
      if next == w then .ok (w, source) else g.settled limit n next source

/-- The expansion of a grammar. Without rules it is the start word at once, for any number of
passes. -/
def expand (g : Grammar) (passes : Passes) (source : ρ) : Except Fault (Word × ρ) :=
  if g.rules.isEmpty then .ok (g.start, source)
  else match passes with
    | .exactly n => g.repeated n g.start source
    | .untilStable limit => g.settled limit limit g.start source

end Grammar
end Lindenmayer
