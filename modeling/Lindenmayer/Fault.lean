import Lindenmayer.Word
import Lindenmayer.Json.Failure

/-! What can go wrong with a system, from its document to its drawing. -/
namespace Lindenmayer

/-- How much a fault matters: the fallback taken, the thing refused, or the drawing given up. -/
inductive Severity where
  | warning
  | error
  | fatal
  deriving DecidableEq, Repr

inductive Kind where
  | invalidProduction
  | emptyRuleKey
  | ambiguousRules
  | invalidWeight
  | invalidParameter
  | unknownAction
  | invalidConfig
  | stackUnderflow
  | unsettled
  deriving DecidableEq, Repr

def Kind.label : Kind → String
  | invalidProduction => "invalid production"
  | emptyRuleKey => "empty rule key"
  | ambiguousRules => "ambiguous rules"
  | invalidWeight => "invalid weight"
  | invalidParameter => "invalid parameter"
  | unknownAction => "unknown action"
  | invalidConfig => "invalid configuration"
  | stackUnderflow => "stack underflow"
  | unsettled => "unsettled expansion"

/-- The causes of faults. A fault of weights may know the rule that they belong to. -/
inductive Cause where
  | emptyKey
  | noAlternatives (key : Word)
  | badWeight (rule : Option Word) (replacement : Word) (weight : Float)
  | badTotal (rule : Option Word) (total : Float)
  | nothingToChoose
  | repeatedKey (key : Word)
  | keyWithinKey (short long : Word)
  | notFinite (parameter : String) (value : Float)
  | zeroScale
  | wrongArity (action : String) (count : Nat)
  | argumentNotFinite (action : String) (value : Float)
  | noSuchAction (action : String)
  | unresolved (symbol : Char) (reason : Cause)
  | bindingKey (key : Word)
  | depthKey (key : Word)
  | document (failure : Json.Failure)
  | nothingSaved
  | notStable (passes : Nat)
  deriving Repr

namespace Cause

def kind : Cause → Kind
  | emptyKey => .emptyRuleKey
  | noAlternatives _ => .invalidProduction
  | badWeight _ _ _ | badTotal _ _ | nothingToChoose => .invalidWeight
  | repeatedKey _ | keyWithinKey _ _ => .ambiguousRules
  | notFinite _ _ | zeroScale => .invalidParameter
  | wrongArity _ _ | argumentNotFinite _ _ | noSuchAction _ => .unknownAction
  | unresolved _ reason => reason.kind
  | bindingKey _ | depthKey _ | document _ => .invalidConfig
  | nothingSaved => .stackUnderflow
  | notStable _ => .unsettled

/-- The mention of the rule that a message is about, if there is one. -/
def about : Option Word → String
  | none => ""
  | some key => "rule `" ++ key.text ++ "`: "

def message : Cause → String
  | emptyKey => "production rules must have a non-empty key"
  | noAlternatives key => "rule `" ++ key.text ++ "` has an empty set of alternatives"
  | badWeight rule replacement weight =>
    about rule ++ "alternative `" ++ replacement.text ++ "` has weight " ++ Decimal.exact weight ++
      ", expected a positive number"
  | badTotal rule total =>
    about rule ++ "weights sum to " ++ Decimal.exact total ++ ", expected a finite total"
  | nothingToChoose => "No weights provided in distribution."
  | repeatedKey key => "rule `" ++ key.text ++ "` is defined twice"
  | keyWithinKey short long =>
    "rule key `" ++ short.text ++ "` is a prefix of rule key `" ++ long.text ++ "`"
  | notFinite parameter value =>
    "`" ++ parameter ++ "` must be finite, got " ++ Decimal.exact value
  | zeroScale => "`scale_factor` must be non-zero"
  | wrongArity action count =>
    "action `" ++ action ++ "` does not take " ++ toString count ++ " argument(s)"
  | argumentNotFinite action value =>
    "action `" ++ action ++ "` given non-finite argument " ++ Decimal.exact value
  | noSuchAction action => "no action named `" ++ action ++ "`"
  | unresolved symbol reason =>
    "symbol `" ++ symbol.toString ++ "`: " ++ reason.message ++ "; treating it as a no-op"
  | bindingKey key => "action key `" ++ key.text ++ "` must be a single symbol"
  | depthKey key => "colour table key `" ++ key.text ++ "` is not a stack depth"
  | document failure => failure.message
  | nothingSaved => "restore without a matching save"
  | notStable passes => "no stable word within " ++ toString passes ++ " passes"

end Cause

/-- A cause, the index of the symbol at which it arose, and how much it matters. -/
structure Fault where
  cause : Cause
  position : Option Nat
  severity : Severity
  deriving Repr

namespace Fault

/-- A refusal that is about no symbol. -/
def of (cause : Cause) : Fault := ⟨cause, none, .error⟩

def kind (f : Fault) : Kind := f.cause.kind

def message (f : Fault) : String := f.cause.message

/-- The line that shows a fault of a kind. -/
def line (kind : Kind) (message : String) (position : Option Nat) : String :=
  let place := match position with
    | none => ""
    | some n => "[symbol " ++ toString n ++ "] "
  place ++ kind.label ++ ": " ++ message

def display (f : Fault) : String := line f.kind f.message f.position

end Fault
end Lindenmayer
