import Lindenmayer.Word

/-! Replacement rules without choice, and one pass over a word. -/
namespace Lindenmayer

/-- Keys and replacements, longest key first. Of equal keys the first counts. -/
structure Rules where
  entries : List (Word × Word)
  deriving Repr

namespace Rules

/-- An entry put before the first one whose key is not longer. -/
def place (r : Word × Word) : List (Word × Word) → List (Word × Word)
  | [] => [r]
  | e :: es => if r.1.length < e.1.length then e :: place r es else r :: e :: es

/-- The rules of a list of keys and replacements. An empty key is no rule. -/
def ofList (rs : List (Word × Word)) : Rules :=
  ⟨(rs.filter (!·.1.isEmpty)).foldr place []⟩

def isEmpty (r : Rules) : Bool := r.entries.isEmpty

def length (r : Rules) : Nat := r.entries.length

/-- The rule of the longest key that the word begins with. -/
def match? (r : Rules) (w : Word) : Option (Word × Word) :=
  r.entries.find? fun e => e.1.isPrefixOf w

/-- A pass over a word in which some symbols still belong to the last key. What is done so far is
kept in reverse. -/
def applyFrom (r : Rules) : Nat → Word → Word → Word
  | _, done, [] => done.reverse
  | skip + 1, done, _ :: cs => r.applyFrom skip done cs
  | 0, done, c :: cs =>
    match r.match? (c :: cs) with
    | some (key, replacement) => r.applyFrom (key.length - 1) (replacement.reverse ++ done) cs
    | none => r.applyFrom 0 (c :: done) cs

/-- One pass over a word from left to right. Where a key fits, the longest one is replaced and
passed over; where none fits, the symbol stays. -/
def apply (r : Rules) (w : Word) : Word :=
  if r.isEmpty then w else r.applyFrom 0 [] w

end Rules
end Lindenmayer
