import Lindenmayer.Picture.Stroke

/-! Bounds of pictures: upright rectangles. -/
namespace Lindenmayer

/-- An upright rectangle by its sides. With a lower side above the upper one it holds nothing. -/
structure Box where
  left : Float
  bottom : Float
  right : Float
  top : Float
  deriving Repr, Inhabited

namespace Box

/-- The box of nothing, which every point extends. -/
def empty : Box := ⟨infinity, infinity, -infinity, -infinity⟩

def isValid (b : Box) : Bool := b.left ≤ b.right && b.bottom ≤ b.top

def width (b : Box) : Float := if b.isValid then b.right - b.left else 0

def height (b : Box) : Float := if b.isValid then b.top - b.bottom else 0

/-- The smallest box around two, valid or not. -/
def join (a b : Box) : Box :=
  ⟨lesser a.left b.left, lesser a.bottom b.bottom, greater a.right b.right, greater a.top b.top⟩

def extend (b : Box) (p : Point) : Box := b.join ⟨p.x, p.y, p.x, p.y⟩

/-- The box extended to another one. An invalid one adds nothing. -/
def union (a b : Box) : Box := if b.isValid then a.join b else a

/-- The box with each side moved outward. An invalid box stays as it is. -/
def inflate (b : Box) (amount : Float) : Box :=
  if b.isValid then
    ⟨b.left - amount, b.bottom - amount, b.right + amount, b.top + amount⟩
  else b

end Box

def Stroke.pathBox (s : Stroke) : Box := s.points.foldl Box.extend Box.empty

/-- The bounds of a stroke with its width: half of it on every side. -/
def Stroke.box (s : Stroke) : Box := s.pathBox.inflate (s.width.abs / 2)

def Picture.box (p : Picture) : Box := (p.strokes.map Stroke.box).foldl Box.union Box.empty

end Lindenmayer
