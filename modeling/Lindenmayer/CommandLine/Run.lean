import Lindenmayer.CommandLine.Arguments
import Lindenmayer.CommandLine.Disk
import Lindenmayer.Preset.Builtin
import Lindenmayer.Preset.Decode
import Lindenmayer.Random.ChaCha

/-! The command line: presets listed, printed as words, or drawn into a file. -/
namespace Lindenmayer.CommandLine

/-- The exit code and what is printed. -/
structure Outcome where
  code : Nat
  stdout : String
  stderr : String
  deriving Repr, DecidableEq

/-- An outcome, or a file to be written before it is known. -/
inductive Response where
  | done (outcome : Outcome)
  | write (path text : String) (warnings : String)

def failure (warnings line : String) : Response := .done ⟨1, "", warnings ++ line ++ "\n"⟩

def faulty (warnings : String) (f : Fault) : Response := failure warnings ("Error: " ++ f.display)

def warningLines (faults : List Fault) : String :=
  String.join (faults.map fun f =>
    (match f.severity with
      | .warning => "Warning: "
      | .error | .fatal => "Error: ") ++ f.message ++ "\n")

/-- The path of a file in a directory. An absolute name stands for itself. -/
def join (directory name : String) : String :=
  if name.startsWith "/" || directory.isEmpty then name
  else if directory.endsWith "/" then directory ++ name
  else directory ++ "/" ++ name

namespace Arguments

def plan (a : Arguments) (p : Preset) : Plan :=
  let plan := p.draw.plan
  { plan with
    passes := (a.passes?.map .exactly).getD plan.passes
    condense := plan.condense && !a.noCondense }

/-- The source of random words: that of the seed, or a fresh one. -/
def source (a : Arguments) (fresh : ChaCha) : ChaCha :=
  (a.seed?.map fun seed => ChaCha.ofSeed (.ofNat seed)).getD fresh

/-- The response to a preset that is there. -/
def present (a : Arguments) (name : String) (p : Preset) (fresh : ChaCha) : Response :=
  match p.system.build with
  | .error f => faulty "" f
  | .ok s =>
    let warnings := warningLines s.warnings
    let source := a.source fresh
    let plan := a.plan p
    if a.print then
      match s.produce plan source with
      | .error f => faulty warnings f
      | .ok (w, _) => .done ⟨0, w.text ++ "\n", warnings⟩
    else
      match p.draw.build with
      | .error f => faulty warnings f
      | .ok decorations =>
        match s.draw plan (decorations.map Decoration.hook) p.style.canvas source with
        | (.error f, _) => faulty warnings f
        | (.ok _, canvas) =>
          .write (join (a.output?.getD ".") (name ++ ".svg"))
            (Svg.render p.style.layout canvas.picture) warnings

def choose (a : Arguments) (presets : Keyed Preset) (fresh : ChaCha) : Response :=
  if a.list then .done ⟨0, String.join (presets.map fun e => e.1.text ++ "\n"), ""⟩
  else
    match a.name? with
    | none => failure "" "No preset name specified (use --list to see them)"
    | some name =>
      match Keyed.find? presets (Word.ofString name) with
      | none => failure "" ("Error: no preset named `" ++ name ++ "`")
      | some p => a.present name p fresh

/-- The response to the arguments, when the file of presets, if one is named, reads as given. -/
def respond (a : Arguments) (file : Except String String) (fresh : ChaCha) : Response :=
  match a.presets? with
  | none => a.choose Preset.builtin fresh
  | some path =>
    match file with
    | .error reason => failure "" ("Error reading " ++ path ++ ": " ++ reason)
    | .ok text =>
      match Preset.load text with
      | .error f => faulty "" f
      | .ok presets => a.choose presets fresh

end Arguments

/-- The outcome of writing a file, when it went as given. -/
def written (path warnings : String) : Except String Unit → Outcome
  | .ok () => ⟨0, "", warnings ++ "Wrote " ++ path ++ "\n"⟩
  | .error reason => ⟨1, "", warnings ++ "Error writing " ++ path ++ ": " ++ reason ++ "\n"⟩

def refused : Outcome := ⟨2, "", ""⟩

namespace Notice

/-- The arguments and options, with what is said of each. -/
def arguments : List (String × String) := [("[NAME]", "Preset to draw")]

def options : List (String × String) :=
  [("    --presets <FILE>", "Read presets from this JSON file instead of the built-in set"),
    ("-n, --iterations <ITERATIONS>", "Override the preset's iteration count"),
    ("    --seed <SEED>", "Seed for probabilistic rules (random if absent)"),
    ("    --no-condense", "Interpret the expanded string as is, without condensation"),
    ("-o, --output <OUTPUT>", "Output directory for SVG files [default: .]"),
    ("    --list", "List preset names and exit"),
    ("    --print", "Print the produced symbol string instead of drawing it"),
    ("-h, --help", "Print help"),
    ("-V, --version", "Print version")]

/-- Rows of two columns, the second one aligned. -/
def aligned (rows : List (String × String)) : List String :=
  let width := (rows.map (·.1.length)).foldl max 0
  rows.map fun (left, right) => "  " ++ left.pushn ' ' (width - left.length) ++ "  " ++ right

def lines : Notice → List String
  | .help =>
    ["Draw Lindenmayer systems as SVG", "", "Usage: lsys [OPTIONS] [NAME]", "", "Arguments:"] ++
      aligned arguments ++ ["", "Options:"] ++ aligned options
  | .version => ["lsys-cli 0.1.0"]

def outcome (n : Notice) : Outcome := ⟨0, String.join (n.lines.map (· ++ "\n")), ""⟩

end Notice

/-- The command line on a store of files: the outcome, and the files afterwards. The fresh source takes
the place of a seed that is not given. -/
def execute {δ : Type} [FileStore δ] (args : List String) (fresh : ChaCha) (files : δ) :
    Outcome × δ :=
  match Arguments.parse? args with
  | none => (refused, files)
  | some (.notice n) => (n.outcome, files)
  | some (.work a) =>
    match a.respond (FileStore.read files (a.presets?.getD "")) fresh with
    | .done outcome => (outcome, files)
    | .write path text warnings =>
      match FileStore.write files path text with
      | .error reason => (written path warnings (.error reason), files)
      | .ok files => (written path warnings (.ok ()), files)

/-- The command line with a seed that takes the place of one that is not given. -/
def run {δ : Type} [FileStore δ] (args : List String) (entropy : UInt64) (files : δ) :
    Outcome × δ :=
  execute args (.ofSeed entropy) files

end Lindenmayer.CommandLine
