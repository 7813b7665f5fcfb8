import Lindenmayer.Geometry.Point
import Lindenmayer.Numeric.Arithmetic

/-! Headings: directions in degrees from the positive x axis, counterclockwise. -/
namespace Lindenmayer.Heading

def sine (degrees : Float) : Float := (degrees * 0.017453292519943295).sin

def cosine (degrees : Float) : Float := (degrees * 0.017453292519943295).cos

/-- The direction of a displacement, in degrees between -180 and 180. The zero displacement has
direction 0. -/
def direction (d : Point) : Float :=
  if d.x == 0 && d.y == 0 then 0
  else Float.atan2 d.y d.x * 57.29577951308232

/-- The heading from one point to another, in degrees from 0. -/
def between (p q : Point) : Float := wrap (direction (q - p)) 360

/-- The displacement of length 1 along a heading. Quarter turns are exact, so that figures of
right angles close without drift. -/
def unit (heading : Float) : Point :=
  let h := wrap heading 360
  if h == 0 then ⟨1, 0⟩
  else if h == 90 then ⟨0, 1⟩
  else if h == 180 then ⟨-1, 0⟩
  else if h == 270 then ⟨0, -1⟩
  else ⟨cosine h, sine h⟩

end Lindenmayer.Heading

namespace Lindenmayer

/-- The point reached from `p` by a straight move along a heading. -/
def Point.advance (p : Point) (heading length : Float) : Point :=
  p + (Heading.unit heading).scale length

end Lindenmayer
