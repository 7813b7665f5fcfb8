import Lindenmayer.Geometry.Heading
import Lindenmayer.Params
import Lindenmayer.Turtle.Action
import Lindenmayer.Turtle.Cursor
import Lindenmayer.Turtle.Surface

/-! The effect of one action: on the cursor, on the stack, and as commands to the surface. -/
namespace Lindenmayer

structure Effect where
  cursor : Cursor
  stack : Stack
  commands : List Command

namespace Cursor

def ahead (c : Cursor) (length : Option Float) : Point :=
  c.position.advance c.heading (length.getD c.stepLength)

/-- A new heading, for the cursor and the surface alike. -/
def turn (c : Cursor) (stack : Stack) (heading : Float) : Effect :=
  ⟨{ c with heading := heading }, stack, [.setHeading heading]⟩

/-- The effect of an action. The one action without an effect is restoring when nothing is
saved. -/
def step (p : Params) (c : Cursor) (stack : Stack) : Action → Except Fault Effect
  | .noop => .ok ⟨c, stack, []⟩
  | .draw length =>
    let target := c.ahead length
    .ok ⟨{ c with position := target, penDown := true }, stack, [.penDown, .lineTo target]⟩
  | .jump length =>
    let target := c.ahead length
    .ok ⟨{ c with position := target, penDown := true }, stack, [.penUp, .moveTo target, .penDown]⟩
  | .turnLeft angle => .ok (c.turn stack (c.heading + angle.getD c.turningAngle))
  | .turnRight angle => .ok (c.turn stack (c.heading - angle.getD c.turningAngle))
  | .reverse => .ok (c.turn stack (-c.heading))
  | .push => .ok ⟨c, c.save :: stack, []⟩
  | .pop =>
    match stack.pop with
    | .error f => .error f
    | .ok (s, rest) =>
      .ok ⟨{ c.restore s with penDown := true }, rest,
        [.penUp, .moveTo s.position, .setHeading s.heading, .setPenWidth s.penWidth, .penDown]⟩
  | .width change =>
    let width := change.apply c.penWidth p.widthIncrement p.scaleFactor
    .ok ⟨{ c with penWidth := width }, stack, [.setPenWidth width]⟩
  | .length change =>
    let length := change.apply c.stepLength p.lengthIncrement p.scaleFactor
    .ok ⟨{ c with stepLength := length }, stack, []⟩
  | .angle change =>
    let angle := change.apply c.turningAngle p.angleIncrement p.scaleFactor
    .ok ⟨{ c with turningAngle := angle }, stack, []⟩

end Cursor
end Lindenmayer
