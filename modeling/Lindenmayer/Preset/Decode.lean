import Lindenmayer.Json.Decode
import Lindenmayer.Preset.Config

/-! Reading presets from documents. Shapes are checked here, and values when a system is built. -/
namespace Lindenmayer

open Json

namespace Production

def alternativeRecord : Record Alternative where
  title := "struct Alternative"
  start := ⟨[], 0⟩
  slots := [
    .must "replacement" word fun x a => { a with replacement := x },
    .must "weight" float fun x a => { a with weight := x }]
  strict := true

/-- The production of a node that has been read: a text, or a list of alternatives. -/
def ofNode? : Node → Option Production
  | .text s _ => some (.fixed (Word.ofString s))
  | n => (list (alternativeRecord.decode .ahead) n).toOption.map .weighted

def decode : Decoder Production :=
  shaped "a replacement string or a list of \x7breplacement, weight\x7d alternatives" ofNode?

end Production

def NamedAction.record : Record NamedAction where
  title := "struct ActionSpec"
  start := ⟨"", []⟩
  slots := [
    .must "name" string fun x a => { a with name := x },
    .may "args" (list float) fun x a => { a with arguments := x }]
  strict := true

def NamedAction.decode : Decoder NamedAction := NamedAction.record.decode .direct

namespace SystemConfig

private def param (name : String) (set : Float → Params → Params) : Slot SystemConfig :=
  .may name float fun x c => { c with params := set x c.params }

def record : Record SystemConfig where
  title := "struct LSystemConfig"
  start := ⟨[], [], .ofAngle 0, []⟩
  slots := [
    .must "start" word fun x c => { c with start := x },
    .may "rules" (table Production.decode) fun x c => { c with rules := x },
    .must "angle" float fun x c => { c with params := { c.params with angle := x } },
    param "scale_factor" fun x p => { p with scaleFactor := x },
    param "width_increment" fun x p => { p with widthIncrement := x },
    param "length_increment" fun x p => { p with lengthIncrement := x },
    param "angle_increment" fun x p => { p with angleIncrement := x },
    .may "actions" (table NamedAction.decode) fun x c => { c with actions := x }]
  strict := true

def decode : Decoder SystemConfig := record.decode .direct

end SystemConfig

namespace Passes

/-- The passes of a node that has been read: a count, or the keyword for a stable word, which may
also stand as the only member of an object, with null. -/
def ofNode? : Node → Option Passes
  | .text "fixed_point" _ => some (.untilStable limit)
  | .object _ (.member _ "fixed_point" _ (.null _) (.closed _)) => some (.untilStable limit)
  | n => (count n).toOption.map .exactly

def decode : Decoder Passes := shaped "a non-negative integer or \"fixed_point\"" ofNode?

end Passes

def Point.decode (reach : Reach) : Decoder Point :=
  array reach [
    .must "x" float fun x p => { p with x := x },
    .must "y" float fun y p => { p with y := y }] .origin

def Rgb.decode (reach : Reach) : Decoder Rgb :=
  array reach [
    .must "red" byte fun x c => { c with red := x },
    .must "green" byte fun x c => { c with green := x },
    .must "blue" byte fun x c => { c with blue := x }] .black

namespace DecorationConfig

/-- The kinds of decorations by the names that documents give them. -/
inductive Tag where
  | wheel
  | table
  | taper

namespace Tag

def names : List String := ["colour_wheel", "colour_table", "tree_width"]

def decode : Decoder Tag
  | .text "colour_wheel" _ => .ok wheel
  | .text "colour_table" _ => .ok table
  | .text "tree_width" _ => .ok taper
  | .text s stop => .error ⟨.unknownVariant s names, some stop⟩
  | n => .error (n.mismatch "variant identifier")

end Tag

def wheelRecord : Record ColorWheel where
  title := "struct variant HookConfig::ColourWheel"
  start := ⟨.origin, 200, 0⟩
  slots := [
    .may "centre" (Point.decode .ahead) fun x w => { w with centre := x },
    .may "radius" float fun x w => { w with radius := x },
    .may "phase" float fun x w => { w with phase := x }]
  strict := false

def tableRecord : Record (Keyed Rgb) where
  title := "struct variant HookConfig::ColourTable"
  start := []
  slots := [.must "table" (Json.table (Rgb.decode .ahead)) fun x _ => x]
  strict := false

def taperRecord : Record Taper where
  title := "struct variant HookConfig::TreeWidth"
  start := ⟨9⟩
  slots := [.may "max_level" count fun x t => { t with levels := x }]
  strict := false

/-- The decoration of a kind from the rest of its node, which has been read. -/
def ofTag : Tag → Decoder DecorationConfig
  | .wheel, n => (wheelRecord.decode .ahead n).map .wheel
  | .table, n => (tableRecord.decode .ahead n).map .table
  | .taper, n => (taperRecord.decode .ahead n).map .taper

/-- The tag among the members of an object, wherever it stands. The other members are read, and
decoded afterwards. -/
def findTag : Members → Option Tag → Except Failure Tag
  | .closed stop, none => .error ⟨.missingField "hook", some stop⟩
  | .closed _, some tag => .ok tag
  | .member _ "hook" refused value rest, tag? =>
    match tag? with
    | some _ => .error ⟨.duplicateField "hook", some refused⟩
    | none => do
      let tag ← within rest.givenUp (Tag.decode value)
      findTag rest (some tag)
  | .member _ _ _ value rest, tag? =>
    match value.failure? with
    | some f => .error f
    | none => findTag rest tag?
  | .stuck _ f, _ => .error f

def withoutTag : Members → Members
  | .member _ "hook" _ _ rest => withoutTag rest
  | .member start key refused value rest => .member start key refused value (withoutTag rest)
  | .closed stop => .closed stop
  | .stuck place f => .stuck place f

/-- A failure in what has been read ahead has no place of its own. -/
def unplaced {α : Type} : Except Failure α → Except Failure α :=
  Except.mapError fun f => { f with place := none }

/-- A decoration with its kind in the member `hook`, or as the first item of an array. -/
def decode : Decoder DecorationConfig
  | .object start members => do
    let tag ← findTag members none
    unplaced (ofTag tag (.object start (withoutTag members)))
  | .list start items =>
    match items with
    | .closed stop => .error ⟨.missingField "hook", some stop⟩
    | .stuck _ next _ => .error next
    | .item _ first rest => do
      let tag ← within rest.givenUp (Tag.decode first)
      match rest.failure? with
      | some f => .error f
      | none => unplaced (ofTag tag (.list start rest))
  | n => .error (n.mismatch "internally tagged enum HookConfig")

end DecorationConfig

namespace DrawConfig

def record : Record DrawConfig where
  title := "struct DrawConfig"
  start := standard
  slots := [
    .must "iterations" Passes.decode fun x d => { d with passes := x },
    .may "base_length" float fun x d => { d with stepLength := x },
    .may "initial_heading" float fun x d => { d with heading := x },
    .may "initial_position" (Point.decode .direct) fun x d => { d with position := x },
    .may "pen_width" (optional float) fun x d => { d with penWidth := x },
    .may "condense" bool fun x d => { d with condense := x },
    .may "hooks" (list DecorationConfig.decode) fun x d => { d with decorations := x }]
  strict := true

def decode : Decoder DrawConfig := record.decode .direct

end DrawConfig

namespace Style

def record : Record Style where
  title := "struct StyleConfig"
  start := standard
  slots := [
    .may "pen_colour" (Rgb.decode .direct) fun x s => { s with pen := x },
    .may "pen_width" float fun x s => { s with penWidth := x },
    .may "background" (optional (Rgb.decode .direct)) fun x s => { s with background := x }]
  strict := true

def decode : Decoder Style := record.decode .direct

end Style

namespace Preset

def record : Record Preset where
  title := "struct Preset"
  start := ⟨SystemConfig.record.start, .standard, .standard⟩
  slots := [
    .must "lsystem" SystemConfig.decode fun x p => { p with system := x },
    .may "draw" DrawConfig.decode fun x p => { p with draw := x },
    .may "style" Style.decode fun x p => { p with style := x }]
  strict := true

def decode : Decoder Preset := record.decode .direct

/-- The presets of a document: an object with the figures by name. -/
def load (text : String) : Except Fault (Keyed Preset) :=
  (decodeText (table decode) text).mapError fun f => .of (.document f)

end Preset
end Lindenmayer
