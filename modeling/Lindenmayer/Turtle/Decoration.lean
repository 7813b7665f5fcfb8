import Lindenmayer.Turtle.Run

/-! Decorations: hooks that a document can ask for. They color or widen the strokes. -/
namespace Lindenmayer

/-- Colors by the place of the cursor around a centre: the hue by the bearing of the centre plus a
phase, the saturation by the distance in radii. -/
structure ColorWheel where
  centre : Point
  radius : Float
  phase : Float
  deriving Repr

/-- The color at a point. Without a positive radius the saturation is full everywhere. -/
def ColorWheel.color (w : ColorWheel) (p : Point) : Color :=
  let hue := wrap (Heading.between p w.centre + w.phase) 360 / 360
  let saturation := if w.radius > 0 then p.distance w.centre / w.radius else 1
  .ofHue hue saturation 1

/-- Colors by the number of saved states, with one for all numbers that are not listed. -/
structure DepthColors where
  colors : List (Nat × Color)
  fallback : Color
  deriving Repr

/-- The color at a depth. The latest entry of a depth counts. -/
def DepthColors.color (d : DepthColors) (depth : Nat) : Color :=
  (d.colors.reverse.lookup depth).getD d.fallback

/-- Pen widths that taper from the trunk to the twigs of a tree with this many levels. -/
structure Taper where
  levels : Nat
  deriving Repr

/-- The width at a depth: `d + 10 · 2 ^ (d - 9) + 4 ^ (2 - d)`, where d is the number of levels
left. -/
def Taper.width (t : Taper) (depth : Nat) : Float :=
  let d := Float.ofNat t.levels - Float.ofNat depth
  d + 10 * powerOfTwo (integerPart (d - 9)) + powerOfTwo (2 * integerPart (2 - d))

inductive Decoration where
  | wheel (colors : ColorWheel)
  | table (colors : DepthColors)
  | taper (widths : Taper)
  deriving Repr

namespace Decoration

/-- The command that a decoration gives before a symbol. -/
def command (d : Decoration) (m : Moment) : Command :=
  match d with
  | wheel w => .setColor (w.color m.cursor.position)
  | table t => .setColor (t.color m.depth)
  | taper t => .setPenWidth (t.width m.depth)

def hook {σ : Type} [Surface σ] (d : Decoration) : Hook σ :=
  fun m s => Surface.perform s (d.command m)

end Decoration
end Lindenmayer
