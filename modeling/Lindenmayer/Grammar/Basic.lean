import Lindenmayer.Grammar.Production
import Lindenmayer.Grammar.Rules

/-! Grammars: a start word and the rules for its symbols. -/
namespace Lindenmayer

structure Grammar where
  start : Word
  rules : Keyed Production
  deriving Repr

namespace Grammar

/-- The rules added one by one to those accepted so far. -/
def gather : List (Word × Production) → Keyed Production → Except Fault (Keyed Production)
  | [], accepted => .ok accepted
  | (key, production) :: rest, accepted =>
    if key.isEmpty then .error (.of .emptyKey)
    else match production.fault? key with
      | some cause => .error (.of cause)
      | none =>
        if Keyed.contains accepted key then .error (.of (.repeatedKey key))
        else gather rest (Keyed.insert key production accepted)

/-- The first key that begins the key after it. In ascending order, a key that begins any other one
begins the one after it. -/
def overlap? : Keyed Production → Option (Word × Word)
  | a :: b :: rest => if a.1.isPrefixOf b.1 then some (a.1, b.1) else overlap? (b :: rest)
  | _ => none

/-- The grammar of a start word and rules in any order. Rules are refused that are malformed or
leave open which of two applies. -/
def ofRules (start : Word) (rules : List (Word × Production)) : Except Fault Grammar :=
  match gather rules [] with
  | .error f => .error f
  | .ok accepted =>
    match overlap? accepted with
    | some (short, long) => .error (.of (.keyWithinKey short long))
    | none => .ok ⟨start, accepted⟩

def isDeterministic (g : Grammar) : Bool := !g.rules.any (·.2.isWeighted)

/-- A symbol put into an ascending list, once. -/
def insertSymbol (c : Char) : List Char → List Char
  | [] => [c]
  | d :: ds => if c < d then c :: d :: ds else if c == d then d :: ds else d :: insertSymbol c ds

/-- Every symbol of the grammar, as it is met. -/
def symbols (g : Grammar) : Word :=
  g.start ++ g.rules.flatMap fun r => r.1 ++ r.2.replacements.flatten

/-- Every symbol that can occur in an expansion, in ascending order. -/
def alphabet (g : Grammar) : List Char := g.symbols.foldl (fun cs c => insertSymbol c cs) []

/-- The replacements chosen for the rules, in the order of their keys. -/
def choices {ρ : Type} [WordSource ρ] :
    Keyed Production → ρ → Except Fault (List (Word × Word) × ρ)
  | [], source => .ok ([], source)
  | (key, production) :: rest, source =>
    match production.choose source with
    | .error f => .error f
    | .ok (w, source) =>
      match choices rest source with
      | .error f => .error f
      | .ok (rs, source) => .ok ((key, w) :: rs, source)

def resolve {ρ : Type} [WordSource ρ] (g : Grammar) (source : ρ) : Except Fault (Rules × ρ) :=
  (choices g.rules source).map fun (rs, source) => (.ofList rs, source)

end Grammar
end Lindenmayer
