import Lindenmayer.Picture.Box
import Lindenmayer.Turtle.Surface

/-! Canvases: surfaces that make a picture. Consecutive segments of one width and color become one
stroke. -/
namespace Lindenmayer

/-- Finished strokes and the points of the one being drawn, both latest first, with the cursor. -/
structure Canvas where
  finished : List Stroke
  points : List Point
  position : Point
  heading : Float
  penDown : Bool
  penWidth : Float
  color : Color
  deriving Repr, Inhabited

namespace Canvas

/-- An empty canvas for a pen of this width and color: cursor at the origin along the x axis, pen
down. -/
def blank (penWidth : Float) (color : Color) : Canvas :=
  ⟨[], [], .origin, 0, true, penWidth, color⟩

def empty : Canvas := blank 1 .black

/-- The stroke being drawn is finished. Without a segment it is none. -/
def flush (c : Canvas) : Canvas :=
  match c.points with
  | _ :: _ :: _ =>
    { c with
      finished := ⟨c.points.reverse, c.penWidth, c.color⟩ :: c.finished
      points := [] }
  | _ => { c with points := [] }

/-- The strokes of the canvas, the one being drawn included. -/
def picture (c : Canvas) : Picture := ⟨c.flush.finished.reverse⟩

/-- Carry out a command. A move, a lifted pen, and a width or color that differs from the present
one end the stroke being drawn. -/
def perform (c : Canvas) : Command → Canvas
  | .moveTo p => { c.flush with position := p }
  | .lineTo p =>
    if c.penDown then
      let before := if c.points.isEmpty then [c.position] else c.points
      { c with points := p :: before, position := p }
    else { c.flush with position := p }
  | .setHeading h => { c with heading := h }
  | .penUp => { c.flush with penDown := false }
  | .penDown => { c with penDown := true }
  | .setPenWidth w => if w == c.penWidth then c else { c.flush with penWidth := w }
  | .setColor k => if k == c.color then c else { c.flush with color := k }

instance : Surface Canvas := ⟨perform, position, heading, penWidth⟩

end Canvas
end Lindenmayer
