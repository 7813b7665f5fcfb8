import Lindenmayer.Geometry.Point
import Lindenmayer.Picture.Color

/-! Pictures: what a turtle leaves behind. -/
namespace Lindenmayer

/-- An open chain of straight segments, drawn with one width and one color. -/
structure Stroke where
  points : List Point
  width : Float
  color : Color
  deriving Repr, Inhabited

def Stroke.segments (s : Stroke) : List (Point × Point) := s.points.zip s.points.tail

structure Picture where
  strokes : List Stroke
  deriving Repr, Inhabited

/-- The number of segments: one less than the points, and none for no points. -/
def Stroke.segmentCount (s : Stroke) : Nat := s.points.length - 1

def Picture.segmentCount (p : Picture) : Nat :=
  p.strokes.foldr (fun s n => s.segmentCount + n) 0

end Lindenmayer
