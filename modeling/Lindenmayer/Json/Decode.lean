import Lindenmayer.Word
import Lindenmayer.Json.Reader

/-! Decoding trees into typed values. A decoder meets the parts of a value in the order of the text
and stops at the first failure. A failure that has no place yet gets it from the innermost list or
object that is given up. -/
namespace Lindenmayer.Json

/-- A reading of nodes as values of a type. -/
abbrev Decoder (α : Type) := Node → Except Failure α

namespace Node

/-- What a node is called in a message, and where reading stands when it is refused. -/
def described : Node → Except Failure (Found × Place)
  | null stop => .ok (.null, stop)
  | boolean b stop => .ok (.boolean b, stop)
  | number (.integer i) stop => .ok (.integer i, stop)
  | number (.real x) stop => .ok (.real x, stop)
  | text s stop => .ok (.text s, stop)
  | list start _ => .ok (.sequence, start)
  | object start _ => .ok (.map, start)
  | broken f => .error f

/-- The failure of a node where something else was expected. -/
def mismatch (expected : String) (n : Node) : Failure :=
  match n.described with
  | .ok (found, place) => ⟨.invalidType found expected, some place⟩
  | .error f => f

end Node

/-- A result whose failure is placed here, unless it has a place. -/
def within {α : Type} (p : Place) : Except Failure α → Except Failure α :=
  Except.mapError (·.located p)

/-! Scalars. -/

def float : Decoder Float
  | .number (.integer i) _ => .ok (Float.ofInt i)
  | .number (.real x) _ => .ok x
  | n => .error (n.mismatch "f64")

def bool : Decoder Bool
  | .boolean b _ => .ok b
  | n => .error (n.mismatch "a boolean")

def string : Decoder String
  | .text s _ => .ok s
  | n => .error (n.mismatch "a string")

def word : Decoder Word := fun n => (string n).map Word.ofString

def natural (bound : Nat) (expected : String) : Decoder Nat
  | .number (.integer i) stop =>
    if 0 ≤ i ∧ i < bound then .ok i.toNat
    else .error ⟨.invalidValue (.integer i) expected, some stop⟩
  | n => .error (n.mismatch expected)

def byte : Decoder UInt8 := fun n => (natural (Nat.pow 2 8) "u8" n).map UInt8.ofNat

def count : Decoder Nat := natural (Nat.pow 2 64) "usize"

def optional {α : Type} (decode : Decoder α) : Decoder (Option α)
  | .null _ => .ok none
  | n => (decode n).map some

/-! Lists and tables. -/

def Items.decode {α : Type} (one : Decoder α) : Items → Except Failure (List α)
  | closed _ => .ok []
  | item _ value rest => do
    let a ← within rest.givenUp (one value)
    return a :: (← rest.decode one)
  | stuck _ next _ => .error next

def list {α : Type} (one : Decoder α) : Decoder (List α)
  | .list _ items => items.decode one
  | n => .error (n.mismatch "a sequence")

/-- The members of an object as a table that extends another one. A key that has an entry is
refused before its value is read. -/
def Members.decode {α : Type} (one : Decoder α) : Members → Keyed α → Except Failure (Keyed α)
  | closed _, t => .ok t
  | member _ key refused value rest, t =>
    let k := Word.ofString key
    if Keyed.contains t k then .error ⟨.duplicateKey key, some refused⟩
    else do
      let a ← within rest.givenUp (one value)
      rest.decode one (Keyed.insert k a t)
  | stuck _ f, _ => .error f

def table {α : Type} (one : Decoder α) : Decoder (Keyed α)
  | .object _ members => members.decode one []
  | n => .error (n.mismatch "an object with distinct keys")

/-! Records: values with named parts, written as objects or as arrays of the parts in order. -/

/-- Whether a value is decoded while it is read or has been read ahead as a whole. What is left over
at the end of an array fails in a different way then. -/
inductive Reach where
  | direct
  | ahead

/-- A named part of a value and how its node goes into the value. A part that is not required keeps
what the value has. -/
structure Slot (α : Type) where
  name : String
  required : Bool
  store : Node → α → Except Failure α

def Slot.must {α β : Type} (name : String) (decode : Decoder β) (set : β → α → α) : Slot α :=
  ⟨name, true, fun n a => (decode n).map (set · a)⟩

def Slot.may {α β : Type} (name : String) (decode : Decoder β) (set : β → α → α) : Slot α :=
  ⟨name, false, fun n a => (decode n).map (set · a)⟩

def elements (n : Nat) : String := toString n ++ (if n = 1 then " element" else " elements")

def Items.length : Items → Nat
  | closed _ | stuck _ _ _ => 0
  | item _ _ rest => rest.length + 1

/-- The end of an array all of whose `total` parts are there. -/
def Items.finish (reach : Reach) (total : Nat) (items : Items) : Except Failure Unit :=
  match reach with
  | .direct => items.closing
  | .ahead =>
    match items.length with
    | 0 => .ok ()
    | n => .error ⟨.invalidLength (total + n) (elements total ++ " in sequence"), none⟩

/-- The parts of a value from the items of an array, from the part with an index on. -/
def Items.fill {α : Type} (reach : Reach) (total : Nat) (expected : String) :
    List (Slot α) → Nat → Items → α → Except Failure α
  | [], _, items, a => (items.finish reach total).map fun _ => a
  | p :: ps, i, .item _ value rest, a => do
    let a ← within rest.givenUp (p.store value a)
    fill reach total expected ps (i + 1) rest a
  | p :: ps, i, .closed stop, a =>
    if p.required then .error ⟨.invalidLength i expected, some stop⟩
    else fill reach total expected ps (i + 1) (.closed stop) a
  | _ :: _, _, .stuck _ next _, _ => .error next

/-- An array with exactly these parts. -/
def array {α : Type} (reach : Reach) (parts : List (Slot α)) (start : α) : Decoder α
  | .list _ items =>
    items.fill reach parts.length ("an array of length " ++ toString parts.length) parts 0 start
  | n => .error (n.mismatch ("an array of length " ++ toString parts.length))

/-- The parts of a value, in the order of their declaration. A strict record refuses members that
it does not know, another one passes over them. -/
structure Record (α : Type) where
  title : String
  start : α
  slots : List (Slot α)
  strict : Bool

namespace Record
variable {α : Type}

/-- The parts of a value from the members of an object, when some parts are there already. -/
def ofMembers (r : Record α) : Members → List String → α → Except Failure α
  | .closed stop, seen, a =>
    match r.slots.find? fun p => p.required && !seen.contains p.name with
    | some p => .error ⟨.missingField p.name, some stop⟩
    | none => .ok a
  | .member _ key refused value rest, seen, a =>
    match r.slots.find? (·.name == key) with
    | none =>
      if r.strict then .error ⟨.unknownField key (r.slots.map (·.name)), some refused⟩
      else match value.failure? with
        | some f => .error f
        | none => r.ofMembers rest seen a
    | some p =>
      if seen.contains key then .error ⟨.duplicateField key, some refused⟩
      else do
        let a ← within rest.givenUp (p.store value a)
        r.ofMembers rest (key :: seen) a
  | .stuck _ f, _, _ => .error f

/-- A record from either of its forms. -/
def decode (r : Record α) (reach : Reach) : Decoder α
  | .object _ members => r.ofMembers members [] r.start
  | .list _ items =>
    items.fill reach r.slots.length (r.title ++ " with " ++ elements r.slots.length) r.slots 0
      r.start
  | n => .error (n.mismatch r.title)

end Record

/-- A value whose shape decides how it is decoded. It is read as a whole first, and then any
misfit has one message. -/
def shaped {α : Type} (expected : String) (decode? : Node → Option α) : Decoder α := fun n =>
  match n.failure? with
  | some f => .error f
  | none =>
    match decode? n with
    | some a => .ok a
    | none => .error ⟨.unfit expected, none⟩

/-- A text read and decoded as one document. -/
def decodeText {α : Type} (decode : Decoder α) (s : String) : Except Failure α := do
  let d := read s
  let a ← decode d.root
  d.tail
  return a

end Lindenmayer.Json
