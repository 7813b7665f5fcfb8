import Lindenmayer.Numeric.Arithmetic
import Lindenmayer.Numeric.Decimal
import Lindenmayer.Picture.Color

/-! Numbers, colors and elements as the texts of a vector image. -/
namespace Lindenmayer.Svg

/-- A text without the zeros at its end, and without a point that they leave there. -/
def trimZeros (s : List Char) : List Char :=
  let cut := s.reverse.dropWhile (· == '0')
  match cut with
  | '.' :: rest => rest.reverse
  | _ => cut.reverse

/-- A number rounded to a number of places, without needless zeros, and zero without a sign. -/
def number (places : Nat) (x : Float) : String :=
  let s := (Decimal.fixed places x).toList
  let t := if s.contains '.' then trimZeros s else s
  String.ofList (if t = ['-', '0'] then ['0'] else t)

def hexByte (b : UInt8) : String :=
  String.ofList [Nat.digitChar (b.toNat / 16), Nat.digitChar (b.toNat % 16)]

def channel (x : Float) : UInt8 := nearestByte (clamp x 0 1 * 255)

/-- A color by name, if it is one of the two extremes, or by its bytes. -/
def color (c : Color) : String :=
  let r := channel c.red
  let g := channel c.green
  let b := channel c.blue
  if r = 0 ∧ g = 0 ∧ b = 0 then "black"
  else if r = 255 ∧ g = 255 ∧ b = 255 then "white"
  else "#" ++ hexByte r ++ hexByte g ++ hexByte b

/-- The name and attributes of an element, which are given in the order of their names. -/
structure Tag where
  name : String
  attributes : List (String × String)

namespace Tag

/-- The tag without its ends. -/
def inner (t : Tag) : String :=
  t.name ++ String.join (t.attributes.map fun (key, value) => " " ++ key ++ "=\"" ++ value ++ "\"")

def lone (t : Tag) : String := "<" ++ t.inner ++ "/>"

def opening (t : Tag) : String := "<" ++ t.inner ++ ">"

def closing (t : Tag) : String := "</" ++ t.name ++ ">"

/-- The lines of an element around the lines of its children. -/
def around (t : Tag) (children : List String) : List String :=
  if children.isEmpty then [t.lone] else t.opening :: children ++ [t.closing]

end Tag
end Lindenmayer.Svg
