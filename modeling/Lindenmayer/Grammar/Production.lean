import Lindenmayer.Fault
import Lindenmayer.Random.Weighted

/-! The right sides of rules: a fixed word, or words with weights. -/
namespace Lindenmayer

structure Alternative where
  replacement : Word
  weight : Float
  deriving Repr

/-- What a rule puts in the place of its key. -/
inductive Production where
  | fixed (replacement : Word)
  | weighted (alternatives : List Alternative)
  deriving Repr

namespace Production

def isWeighted : Production → Bool
  | fixed _ => false
  | weighted _ => true

def replacements : Production → List Word
  | fixed w => [w]
  | weighted as => as.map (·.replacement)

/-- What is wrong with the weights of a rule, if anything: a weight that is no positive number, or
a sum past the doubles. -/
def weightFault? (rule : Option Word) (as : List Alternative) : Option Cause :=
  match as.find? fun a => !(a.weight.isFinite && a.weight > 0) with
  | some a => some (.badWeight rule a.replacement a.weight)
  | none =>
    let total := Weighted.total (as.map (·.weight))
    if total.isFinite then none else some (.badTotal rule total)

def fault? (key : Word) : Production → Option Cause
  | fixed _ => none
  | weighted as => if as.isEmpty then some (.noAlternatives key) else weightFault? (some key) as

/-- One of the replacements. A fixed one and a lone alternative take no random word, whatever its
weight; any other choice takes one. -/
def choose {ρ : Type} [WordSource ρ] (p : Production) (source : ρ) : Except Fault (Word × ρ) :=
  match p with
  | fixed w => .ok (w, source)
  | weighted [a] => .ok (a.replacement, source)
  | weighted as =>
    match weightFault? none as with
    | some cause => .error (.of cause)
    | none =>
      let (word, source) := WordSource.next source
      match as[Weighted.index (as.map (·.weight)) word]? with
      | some a => .ok (a.replacement, source)
      | none => .error (.of .nothingToChoose)

end Production
end Lindenmayer
