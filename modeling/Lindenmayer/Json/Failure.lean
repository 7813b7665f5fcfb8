import Lindenmayer.Numeric.Decimal
import Lindenmayer.Text.Quoted

/-! What can be wrong with a document, and where. -/
namespace Lindenmayer.Json

/-- A place in a text: the line, from 1, and the number of bytes before it on that line. -/
structure Place where
  line : Nat
  column : Nat
  deriving DecidableEq, Repr

def Place.start : Place := ⟨1, 0⟩

def Place.after (p : Place) (c : Char) : Place :=
  if c == '\n' then ⟨p.line + 1, 0⟩ else ⟨p.line, p.column + c.utf8Size⟩

/-- The place after one byte of a line. -/
def Place.next (p : Place) : Place := ⟨p.line, p.column + 1⟩

/-- What was found where something else was expected. -/
inductive Found where
  | null
  | boolean (value : Bool)
  | integer (value : Int)
  | real (value : Float)
  | text (value : String)
  | sequence
  | map
  deriving Repr

namespace Found

def message : Found → String
  | null => "null"
  | boolean b => "boolean `" ++ (if b then "true" else "false") ++ "`"
  | integer i => "integer `" ++ toString i ++ "`"
  | real x => "floating point `" ++ Decimal.general x ++ "`"
  | text s => "string " ++ Text.quoted s
  | sequence => "sequence"
  | map => "map"

end Found

/-- Why a document is refused. The first group is about its text, the second about its
meaning. -/
inductive Problem where
  | endInValue
  | endInList
  | endInObject
  | endInText
  | valueExpected
  | identifierExpected
  | colonExpected
  | listEndExpected
  | objectEndExpected
  | keyNotText
  | trailingComma
  | trailingCharacters
  | invalidNumber
  | numberOutOfRange
  | invalidEscape
  | unpairedEscape
  | loneSurrogate
  | controlCharacter
  | tooDeep
  | invalidType (found : Found) (expected : String)
  | invalidValue (found : Found) (expected : String)
  | invalidLength (length : Nat) (expected : String)
  | unknownField (name : String) (known : List String)
  | unknownVariant (name : String) (known : List String)
  | missingField (name : String)
  | duplicateField (name : String)
  | duplicateKey (key : String)
  | unfit (expected : String)
  deriving Repr

namespace Problem

private def ticked (s : String) : String := "`" ++ s ++ "`"

def oneOf : List String → String
  | [] => "there are no fields"
  | [a] => "expected " ++ ticked a
  | [a, b] => "expected " ++ ticked a ++ " or " ++ ticked b
  | names => "expected one of " ++ ", ".intercalate (names.map ticked)

def message : Problem → String
  | endInValue => "EOF while parsing a value"
  | endInList => "EOF while parsing a list"
  | endInObject => "EOF while parsing an object"
  | endInText => "EOF while parsing a string"
  | valueExpected => "expected value"
  | identifierExpected => "expected ident"
  | colonExpected => "expected `:`"
  | listEndExpected => "expected `,` or `]`"
  | objectEndExpected => "expected `,` or `\x7d`"
  | keyNotText => "key must be a string"
  | trailingComma => "trailing comma"
  | trailingCharacters => "trailing characters"
  | invalidNumber => "invalid number"
  | numberOutOfRange => "number out of range"
  | invalidEscape => "invalid escape"
  | unpairedEscape => "unexpected end of hex escape"
  | loneSurrogate => "lone leading surrogate in hex escape"
  | controlCharacter => "control character (\\u0000-\\u001F) found while parsing a string"
  | tooDeep => "recursion limit exceeded"
  | invalidType found expected => "invalid type: " ++ found.message ++ ", expected " ++ expected
  | invalidValue found expected => "invalid value: " ++ found.message ++ ", expected " ++ expected
  | invalidLength n expected => "invalid length " ++ toString n ++ ", expected " ++ expected
  | unknownField name known => "unknown field " ++ ticked name ++ ", " ++ oneOf known
  | unknownVariant name known => "unknown variant " ++ ticked name ++ ", " ++ oneOf known
  | missingField name => "missing field " ++ ticked name
  | duplicateField name => "duplicate field " ++ ticked name
  | duplicateKey key => "duplicate key " ++ ticked key
  | unfit expected => expected

end Problem

/-- A problem and the place where reading stood, once that is known. -/
structure Failure where
  problem : Problem
  place : Option Place
  deriving Repr

namespace Failure

/-- The failure placed here, unless it has a place. -/
def located (f : Failure) (p : Place) : Failure :=
  { f with place := some (f.place.getD p) }

def message (f : Failure) : String :=
  match f.place with
  | none => f.problem.message
  | some p =>
    f.problem.message ++ " at line " ++ toString p.line ++ " column " ++ toString p.column

end Failure
end Lindenmayer.Json
