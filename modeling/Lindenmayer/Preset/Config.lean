import Lindenmayer.System.Basic
import Lindenmayer.Turtle.Decoration
import Lindenmayer.Turtle.Canvas
import Lindenmayer.Svg.Render

/-! Presets: named figures as documents describe them. -/
namespace Lindenmayer

structure Rgb where
  red : UInt8
  green : UInt8
  blue : UInt8
  deriving Repr, DecidableEq

namespace Rgb

def black : Rgb := ⟨0, 0, 0⟩

def color (c : Rgb) : Color := .ofBytes c.red c.green c.blue

end Rgb

structure SystemConfig where
  start : Word
  rules : Keyed Production
  params : Params
  actions : Keyed NamedAction
  deriving Repr

namespace SystemConfig

/-- The bindings with their keys as symbols. Each key has to be one. -/
def bindings : Keyed NamedAction → Except Fault (List (Char × NamedAction))
  | [] => .ok []
  | ([symbol], a) :: rest => (bindings rest).map ((symbol, a) :: ·)
  | (key, _) :: _ => .error (.of (.bindingKey key))

/-- The system that is described. Its grammar is checked first, then its bindings, then its
numbers. -/
def build (c : SystemConfig) : Except Fault System := do
  let grammar ← Grammar.ofRules c.start c.rules
  let bindings ← bindings c.actions
  System.build grammar c.params bindings

end SystemConfig

/-- A decoration as it is described. The depths of a table are texts there. -/
inductive DecorationConfig where
  | wheel (colors : ColorWheel)
  | table (colors : Keyed Rgb)
  | taper (widths : Taper)
  deriving Repr

/-- A text of decimal digits as a number of at most `2 ^ bits - 1`. A plus sign may stand before
them. -/
def decimal? (bits : Nat) (w : Word) : Option Nat :=
  let digits := match w with
    | '+' :: rest => rest
    | _ => w
  if digits.isEmpty || !digits.all Char.isDigit then none
  else
    let n := digits.foldl (fun n d => n * 10 + (d.toNat - '0'.toNat)) 0
    if n < Nat.pow 2 bits then some n else none

namespace DecorationConfig

/-- The depths of a table, in the order of their texts. -/
def depths : Keyed Rgb → Except Fault (List (Nat × Color))
  | [] => .ok []
  | (key, c) :: rest =>
    match decimal? 64 key with
    | none => .error (.of (.depthKey key))
    | some depth => (depths rest).map ((depth, c.color) :: ·)

def build : DecorationConfig → Except Fault Decoration
  | wheel w => .ok (.wheel w)
  | table t => (depths t).map fun colors => .table ⟨colors, .white⟩
  | taper t => .ok (.taper t)

end DecorationConfig

/-- A plan and its decorations as they are described. -/
structure DrawConfig where
  passes : Passes
  stepLength : Float
  heading : Float
  position : Point
  penWidth : Option Float
  condense : Bool
  decorations : List DecorationConfig
  deriving Repr

namespace DrawConfig

/-- No passes, steps of 5 from the origin along the x axis, condensed. -/
def standard : DrawConfig := ⟨.exactly 0, 5, 0, .origin, none, true, []⟩

def plan (d : DrawConfig) : Plan :=
  ⟨d.passes, ⟨d.position, d.heading, d.stepLength, d.penWidth⟩, d.condense⟩

/-- The decorations in order. -/
def build (d : DrawConfig) : Except Fault (List Decoration) :=
  d.decorations.mapM DecorationConfig.build

end DrawConfig

structure Style where
  pen : Rgb
  penWidth : Float
  background : Option Rgb
  deriving Repr

namespace Style

/-- A black pen of width 1, and nothing behind. -/
def standard : Style := ⟨.black, 1, none⟩

def canvas (s : Style) : Canvas := .blank s.penWidth s.pen.color

def layout (s : Style) : Svg.Layout := { Svg.Layout.standard with background := s.background.map Rgb.color }

end Style

/-- A figure: a system, how to draw it, and in what style. -/
structure Preset where
  system : SystemConfig
  draw : DrawConfig
  style : Style
  deriving Repr

end Lindenmayer
