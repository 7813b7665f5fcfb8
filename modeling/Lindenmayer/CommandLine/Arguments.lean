import Lindenmayer.Preset.Config

/-! The arguments of the command line. -/
namespace Lindenmayer.CommandLine

/-- The figure to work on and how. -/
structure Arguments where
  name? : Option String
  presets? : Option String
  passes? : Option Nat
  seed? : Option Nat
  output? : Option String
  noCondense : Bool
  list : Bool
  print : Bool
  deriving Repr, DecidableEq

/-- What can be asked of the program itself: how it is used, or its name with its version. -/
inductive Notice where
  | help
  | version
  deriving Repr, DecidableEq

namespace Notice

def ofLong? : String → Option Notice
  | "help" => some .help
  | "version" => some .version
  | _ => none

def ofShort? : Char → Option Notice
  | 'h' => some .help
  | 'V' => some .version
  | _ => none

end Notice

/-- What the command line asks for: a notice, or work. -/
inductive Request where
  | notice (n : Notice)
  | work (arguments : Arguments)
  deriving Repr, DecidableEq

namespace Arguments

def blank : Arguments := ⟨none, none, none, none, none, false, false, false⟩

/-- The value of an option that may be given once. -/
def once {α : Type} (present : Option α) (value : Option α) : Option (Option α) :=
  match present, value with
  | none, some a => some (some a)
  | _, _ => none

/-- An option by its long name, with its value. Nothing if there is no such option, if it was given
before, or if the value is no number where one is needed. -/
def withValue (a : Arguments) (name value : String) : Option Arguments :=
  let count := decimal? 64 (Word.ofString value)
  match name with
  | "presets" => (once a.presets? (some value)).map fun v => { a with presets? := v }
  | "iterations" => (once a.passes? count).map fun v => { a with passes? := v }
  | "seed" => (once a.seed? count).map fun v => { a with seed? := v }
  | "output" => (once a.output? (some value)).map fun v => { a with output? := v }
  | _ => none

/-- An option without a value, which may be given once. -/
def withFlag (a : Arguments) (name : String) : Option Arguments :=
  match name with
  | "no-condense" => if a.noCondense then none else some { a with noCondense := true }
  | "list" => if a.list then none else some { a with list := true }
  | "print" => if a.print then none else some { a with print := true }
  | _ => none

def withName (a : Arguments) (name : String) : Option Arguments :=
  (once a.name? (some name)).map fun v => { a with name? := v }

def takesValue (name : String) : Bool :=
  ["presets", "iterations", "seed", "output"].contains name

def longName? : Char → Option String
  | 'n' => some "iterations"
  | 'o' => some "output"
  | _ => none

/-- Whether an argument can be the value of the option before it: it does not start with a dash, or
it is nothing else. -/
def isValue (s : String) : Bool := s == "-" || !s.startsWith "-"

/-- A text cut at its first equals sign, if it has one. -/
def cutAtEquals (s : List Char) : List Char × Option (List Char) :=
  match s.dropWhile (· != '=') with
  | _ :: value => (s.takeWhile (· != '='), some value)
  | [] => (s, none)

/-- What an argument is, before options are looked up. A short option may have its value joined to
it, with or without an equals sign. -/
inductive Form where
  | endOfOptions
  | notice (n : Notice)
  | option (name : String) (value? : Option String)
  | unknown
  | plain

def form (s : String) : Form :=
  match s.toList with
  | ['-', '-'] => .endOfOptions
  | '-' :: '-' :: rest =>
    match cutAtEquals rest with
    | (name, none) =>
      let name := String.ofList name
      match Notice.ofLong? name with
      | some n => .notice n
      | none => .option name none
    | (name, some value) => .option (.ofList name) (some (.ofList value))
  | '-' :: c :: rest =>
    match Notice.ofShort? c, longName? c, rest with
    | some n, _, _ => .notice n
    | none, none, _ => .unknown
    | none, some name, [] => .option name none
    | none, some name, '=' :: value => .option name (some (.ofList value))
    | none, some name, value => .option name (some (.ofList value))
  | _ => .plain

/-- The arguments after an option that waits for its value, or after none. Options may stand anywhere
before a double dash, and nothing is read after one that asks for a notice. Nothing if an argument is
not understood. -/
def gather : Option String → List String → Arguments → Option Request
  | none, [], a => some (.work a)
  | some _, [], _ => none
  | some name, s :: rest, a =>
    if isValue s then (a.withValue name s).bind (gather none rest) else none
  | none, s :: rest, a =>
    match form s with
    | .endOfOptions => (rest.foldlM withName a).map .work
    | .notice n => some (.notice n)
    | .option name none =>
      if takesValue name then gather (some name) rest a
      else (a.withFlag name).bind (gather none rest)
    | .option name (some value) => (a.withValue name value).bind (gather none rest)
    | .unknown => none
    | .plain => (a.withName s).bind (gather none rest)

/-- The arguments as they are understood, if they are. -/
def parse? (args : List String) : Option Request := gather none args blank

end Arguments
end Lindenmayer.CommandLine
