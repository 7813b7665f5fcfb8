import Lindenmayer.Turtle.Surface

/-! Recorders: surfaces that keep the commands they are given, and surfaces with notes. -/
namespace Lindenmayer

/-- The commands so far, latest first, with the cursor that they leave. Each command is stored as it
is given; a recorder without color takes no notice of colors. -/
structure Recorder where
  colored : Bool
  commands : List Command
  position : Point
  heading : Float
  penDown : Bool
  penWidth : Float
  deriving Repr, Inhabited

namespace Recorder

def blank (colored : Bool) (penWidth : Float) : Recorder :=
  ⟨colored, [], .origin, 0, true, penWidth⟩

def perform (r : Recorder) (command : Command) : Recorder :=
  let logged := { r with commands := command :: r.commands }
  match command with
  | .moveTo p | .lineTo p => { logged with position := p }
  | .setHeading h => { logged with heading := h }
  | .penUp => { logged with penDown := false }
  | .penDown => { logged with penDown := true }
  | .setPenWidth w => { logged with penWidth := w }
  | .setColor _ => if r.colored then logged else r

instance : Surface Recorder := ⟨perform, position, heading, penWidth⟩

def log (r : Recorder) : List Command := r.commands.reverse

end Recorder

/-- A surface with notes on the side, latest first. -/
structure Noted (σ ν : Type) where
  surface : σ
  notes : List ν

instance {σ ν : Type} [Surface σ] : Surface (Noted σ ν) where
  perform n command := { n with surface := Surface.perform n.surface command }
  position n := Surface.position n.surface
  heading n := Surface.heading n.surface
  penWidth n := Surface.penWidth n.surface

def Noted.note {σ ν : Type} (n : Noted σ ν) (entry : ν) : Noted σ ν :=
  { n with notes := entry :: n.notes }

end Lindenmayer
