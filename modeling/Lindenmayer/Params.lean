import Lindenmayer.Fault

/-! The numbers of a system that its symbols use. -/
namespace Lindenmayer

/-- The turning angle in degrees, and the amounts by which symbols adjust widths, lengths and
angles. -/
structure Params where
  angle : Float
  scaleFactor : Float
  widthIncrement : Float
  lengthIncrement : Float
  angleIncrement : Float
  deriving Repr

namespace Params

/-- A turning angle with adjustments that change nothing. -/
def ofAngle (angle : Float) : Params := ⟨angle, 1, 0, 0, 0⟩

/-- The numbers by the names that documents give them. -/
def named (p : Params) : List (String × Float) :=
  [("angle", p.angle), ("scale_factor", p.scaleFactor), ("width_increment", p.widthIncrement),
    ("length_increment", p.lengthIncrement), ("angle_increment", p.angleIncrement)]

/-- What is wrong with the numbers, if anything: the first that is not finite, or else a scale
factor of zero. -/
def fault? (p : Params) : Option Cause :=
  match p.named.find? (!·.2.isFinite) with
  | some (name, x) => some (.notFinite name x)
  | none => if p.scaleFactor == 0 then some .zeroScale else none

end Params
end Lindenmayer
