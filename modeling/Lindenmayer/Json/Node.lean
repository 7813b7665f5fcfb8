import Lindenmayer.Json.Failure

/-! Documents as trees. A tree reaches as far as its text can be read: where reading stops it
holds the failure, so that a decoder meets failures in the order of the text. Members keep their
order, and a key may repeat. -/
namespace Lindenmayer.Json

/-- A number as it is written: an integer of 64 bits, or the double read for it. -/
inductive Number where
  | integer (value : Int)
  | real (value : Float)
  deriving Repr

mutual

/-- A value. Scalars know the place after them, lists and objects the place before them. -/
inductive Node where
  | null (stop : Place)
  | boolean (value : Bool) (stop : Place)
  | number (value : Number) (stop : Place)
  | text (value : String) (stop : Place)
  | list (start : Place) (items : Items)
  | object (start : Place) (members : Members)
  | broken (failure : Failure)

/-- The rest of a list. It is stuck where neither an item nor the end can be read: reading an
item fails in one way there, and ending the list in another. -/
inductive Items where
  | closed (stop : Place)
  | item (start : Place) (value : Node) (rest : Items)
  | stuck (place : Place) (next close : Failure)

/-- The rest of an object. A member knows the place before it, which for all but the first is
before the comma, and the place where reading stands when its key is refused. -/
inductive Members where
  | closed (stop : Place)
  | member (start : Place) (key : String) (refused : Place) (value : Node) (rest : Members)
  | stuck (place : Place) (failure : Failure)

end

/-- Where reading stands once a list is given up and closed as well as can be. -/
def Items.givenUp : Items → Place
  | closed stop => stop
  | item start _ _ => start
  | stuck place _ _ => place

/-- Where reading stands once an object is given up and closed as well as can be. -/
def Members.givenUp : Members → Place
  | closed stop => stop
  | member start _ _ _ _ => start
  | stuck place _ => place

/-- The failure of ending a list here. -/
def Items.closing : Items → Except Failure Unit
  | closed _ => .ok ()
  | item start _ _ => .error ⟨.trailingCharacters, some start.next⟩
  | stuck _ _ close => .error close

mutual

/-- The first failure in a value, in the order of the text. -/
def Node.failure? : Node → Option Failure
  | .list _ items => items.failure?
  | .object _ members => members.failure?
  | .broken f => some f
  | .null _ | .boolean _ _ | .number _ _ | .text _ _ => none

def Items.failure? : Items → Option Failure
  | .closed _ => none
  | .item _ value rest => value.failure? <|> rest.failure?
  | .stuck _ next _ => some next

def Members.failure? : Members → Option Failure
  | .closed _ => none
  | .member _ _ _ value rest => value.failure? <|> rest.failure?
  | .stuck _ f => some f

end

/-- A text as a document: its value, and what is wrong with what follows the value. -/
structure Document where
  root : Node
  tail : Except Failure Unit

end Lindenmayer.Json
