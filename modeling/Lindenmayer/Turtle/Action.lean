import Lindenmayer.Fault

/-! What symbols do, and the table that binds them. -/
namespace Lindenmayer

/-- A change of one number by an amount. Without one of its own, a sum or difference takes the
increment of that number and a product or quotient the scale factor. -/
inductive Adjustment where
  | add (amount : Option Float)
  | sub (amount : Option Float)
  | mul (amount : Option Float)
  | div (amount : Option Float)
  deriving Repr

def Adjustment.apply (a : Adjustment) (value increment scale : Float) : Float :=
  match a with
  | add amount => value + amount.getD increment
  | sub amount => value - amount.getD increment
  | mul amount => value * amount.getD scale
  | div amount => value / amount.getD scale

/-- What a symbol does to the turtle. An amount stands in for the step length or the turning
angle. -/
inductive Action where
  | noop
  | draw (length : Option Float)
  | jump (length : Option Float)
  | turnLeft (angle : Option Float)
  | turnRight (angle : Option Float)
  | reverse
  | push
  | pop
  | width (change : Adjustment)
  | length (change : Adjustment)
  | angle (change : Adjustment)
  deriving Repr

def Action.isNoop : Action → Bool
  | noop => true
  | _ => false

/-- An action by its name, with arguments, as documents bind it to a symbol. -/
structure NamedAction where
  name : String
  arguments : List Float
  deriving Repr

namespace NamedAction

/-- The action of a name with at most one amount, if there is one. -/
def action? (name : String) (amount : Option Float) : Option Action :=
  match name with
  | "noop" => some .noop
  | "push" => some .push
  | "pop" => some .pop
  | "reverse" => some .reverse
  | "forward" => some (.draw amount)
  | "forward_nodraw" | "jump" => some (.jump amount)
  | "turn_left" => some (.turnLeft amount)
  | "turn_right" => some (.turnRight amount)
  | "width_inc" => some (.width (.add amount))
  | "width_dec" => some (.width (.sub amount))
  | "width_mul" => some (.width (.mul amount))
  | "width_div" => some (.width (.div amount))
  | "length_inc" => some (.length (.add amount))
  | "length_dec" => some (.length (.sub amount))
  | "length_mul" => some (.length (.mul amount))
  | "length_div" => some (.length (.div amount))
  | "angle_inc" => some (.angle (.add amount))
  | "angle_dec" => some (.angle (.sub amount))
  | _ => none

/-- Whether an action has a place for an amount. -/
def takesAmount : Action → Bool
  | .noop | .push | .pop | .reverse => false
  | _ => true

/-- The action itself. Too many arguments are refused first, then one that is not finite, then an
argument where none belongs and an unknown name. -/
def resolve (a : NamedAction) : Except Cause Action :=
  let arity := Cause.wrongArity a.name a.arguments.length
  let bound (amount : Option Float) : Except Cause Action :=
    match action? a.name amount with
    | none => .error (.noSuchAction a.name)
    | some action =>
      if amount.isSome && !takesAmount action then .error arity else .ok action
  match a.arguments with
  | [] => bound none
  | [x] => if x.isFinite then bound (some x) else .error (.argumentNotFinite a.name x)
  | _ => .error arity

end NamedAction

/-- The actions of symbols, latest binding first. A symbol without one does nothing. -/
structure Bindings where
  entries : List (Char × Action)
  deriving Repr

namespace Bindings

def standard : Bindings :=
  ⟨[('X', .noop), ('F', .draw none), ('f', .jump none), ('+', .turnLeft none),
    ('-', .turnRight none), ('|', .reverse), ('[', .push), (']', .pop),
    ('#', .width (.add none)), ('!', .width (.sub none)), ('>', .length (.mul none)),
    ('<', .length (.div none)), ('*', .width (.mul none)), ('/', .width (.div none)),
    ('&', .length (.add none)), ('%', .length (.sub none)), ('(', .angle (.sub none)),
    (')', .angle (.add none))]⟩

def bind (b : Bindings) (symbol : Char) (action : Action) : Bindings :=
  ⟨(symbol, action) :: b.entries⟩

def action (b : Bindings) (symbol : Char) : Action := (b.entries.lookup symbol).getD .noop

def isNoop (b : Bindings) (symbol : Char) : Bool := (b.action symbol).isNoop

/-- Bindings added in order. One that names no action binds its symbol to nothing and leaves a
warning. -/
def extend (b : Bindings) : List (Char × NamedAction) → Bindings × List Fault
  | [] => (b, [])
  | (symbol, named) :: rest =>
    match named.resolve with
    | .ok action => (b.bind symbol action).extend rest
    | .error cause =>
      let (b, warnings) := (b.bind symbol .noop).extend rest
      (b, ⟨.unresolved symbol cause, none, .warning⟩ :: warnings)

end Bindings
end Lindenmayer
