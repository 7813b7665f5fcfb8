import Lindenmayer.Fault
import Lindenmayer.Geometry.Point

/-! The state of the turtle, and the stack of what it has saved. -/
namespace Lindenmayer

/-- Where the turtle is and how it draws. -/
structure Cursor where
  position : Point
  heading : Float
  penDown : Bool
  penWidth : Float
  stepLength : Float
  turningAngle : Float
  deriving Repr, Inhabited

/-- The part of a cursor that is saved and restored. -/
structure Saved where
  position : Point
  heading : Float
  stepLength : Float
  penWidth : Float
  deriving Repr, Inhabited

def Cursor.save (c : Cursor) : Saved := ⟨c.position, c.heading, c.stepLength, c.penWidth⟩

/-- The cursor with what was saved put back. Pen and turning angle stay as they are. -/
def Cursor.restore (c : Cursor) (s : Saved) : Cursor :=
  { c with
    position := s.position
    heading := s.heading
    stepLength := s.stepLength
    penWidth := s.penWidth }

abbrev Stack := List Saved

def Stack.pop : Stack → Except Fault (Saved × Stack)
  | [] => .error (.of .nothingSaved)
  | s :: rest => .ok (s, rest)

/-- Where a turtle starts. Without a pen width it takes that of the surface. -/
structure Pose where
  position : Point
  heading : Float
  stepLength : Float
  penWidth : Option Float
  deriving Repr, Inhabited

/-- At the origin along the x axis, with steps of 5. -/
def Pose.standard : Pose := ⟨.origin, 0, 5, none⟩

end Lindenmayer
