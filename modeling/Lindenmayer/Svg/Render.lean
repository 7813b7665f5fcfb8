import Lindenmayer.Picture.Box
import Lindenmayer.Svg.Text

/-! Pictures as vector images. The turtle's y axis points up and the image's points down, so that
every y is written with its sign changed. -/
namespace Lindenmayer.Svg

/-- How an image is laid out: the margin around the drawing, the decimal places of numbers, and what
is behind the drawing. -/
structure Layout where
  margin : Float
  places : Nat
  background : Option Color
  deriving Repr

/-- A margin of 10, three places, nothing behind. -/
def Layout.standard : Layout := ⟨10, 3, none⟩

def point (places : Nat) (p : Point) : String := number places p.x ++ "," ++ number places (-p.y)

/-- A chain of points as path data: a move to the first, and a line to each of the others. -/
def pathData (places : Nat) : List Point → String
  | [] => ""
  | p :: ps => ps.foldl (fun d q => d ++ "L" ++ point places q) ("M" ++ point places p)

/-- A stroke as an element. Ends and joins are round, and a negative width counts like a positive
one. -/
def path (places : Nat) (s : Stroke) : Tag :=
  ⟨"path",
    [("d", pathData places s.points), ("fill", "none"), ("stroke", color s.color),
      ("stroke-linecap", "round"), ("stroke-linejoin", "round"),
      ("stroke-width", number places s.width.abs)]⟩

/-- A part of the image plane by its upper left corner and its size. -/
structure View where
  x : Float
  y : Float
  width : Float
  height : Float
  deriving Repr

/-- What an image shows: the box of the drawing, upside down, with the margin on every side. A
drawing without bounds shows a square of 100. -/
def view (b : Box) (margin : Float) : View :=
  if b.isValid then
    ⟨b.left - margin, -b.top - margin, fusedMulAdd 2 margin b.width, fusedMulAdd 2 margin b.height⟩
  else ⟨0, 0, 100, 100⟩

def imageTag (places : Nat) (v : View) : Tag :=
  let n := number places
  ⟨"svg",
    [("height", n v.height), ("viewBox", n v.x ++ " " ++ n v.y ++ " " ++ n v.width ++ " " ++ n v.height),
      ("width", n v.width), ("xmlns", "http://www.w3.org/2000/svg")]⟩

def backgroundTag (places : Nat) (v : View) (c : Color) : Tag :=
  let n := number places
  ⟨"rect", [("fill", color c), ("height", n v.height), ("width", n v.width), ("x", n v.x), ("y", n v.y)]⟩

def lines (l : Layout) (p : Picture) : List String :=
  let v := view p.box l.margin
  let behind := (l.background.map fun c => (backgroundTag l.places v c).lone).toList
  let strokes := p.strokes.map fun s => (path l.places s).lone
  (imageTag l.places v).around (behind ++ (⟨"g", []⟩ : Tag).around strokes)

def render (l : Layout) (p : Picture) : String := "\n".intercalate (lines l p)

end Lindenmayer.Svg
