import Lindenmayer.Geometry.Heading
import Lindenmayer.Picture.Color

/-! Surfaces: what a turtle draws on, one command after another. -/
namespace Lindenmayer

/-- What a surface is told to do. -/
inductive Command where
  /-- Go to a point without drawing. -/
  | moveTo (target : Point)
  /-- Go to a point, drawing a segment if the pen is down. -/
  | lineTo (target : Point)
  | setHeading (heading : Float)
  | penUp
  | penDown
  | setPenWidth (width : Float)
  | setColor (color : Color)
  deriving Repr, Inhabited

/-- The commands that only change how segments look. -/
def Command.isCosmetic : Command → Bool
  | setPenWidth _ | setColor _ => true
  | _ => false

/-- A state that carries out commands and shows where its own cursor is. -/
class Surface (σ : Type) where
  perform : σ → Command → σ
  position : σ → Point
  heading : σ → Float
  penWidth : σ → Float

def Surface.performAll {σ : Type} [Surface σ] (s : σ) (commands : List Command) : σ :=
  commands.foldl Surface.perform s

end Lindenmayer
