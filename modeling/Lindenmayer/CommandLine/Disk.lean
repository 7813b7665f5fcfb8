/-! Files as the command line uses them: one text read, one text written. -/
namespace Lindenmayer.CommandLine

/-- A state of files. Either operation may be refused with a reason. -/
class FileStore (δ : Type) where
  read : δ → String → Except String String
  write : δ → String → String → Except String δ

/-- A place as the names on the way to it from the top. -/
abbrev Path := List String

/-- A tree of files: the texts of the files and the directories, by path, and the directory where
paths begin that do not begin at the top. -/
structure Disk where
  files : List (Path × String)
  directories : List Path
  home : Path
  deriving Repr

namespace Disk

def missing : String := "No such file or directory (os error 2)"
def notDirectory : String := "Not a directory (os error 20)"
def isDirectory : String := "Is a directory (os error 21)"
def tooLong : String := "File name too long (os error 36)"

def nameLimit : Nat := 255

def textLimit : Nat := 4095

/-- Whether there is a directory at a path: one that is listed, or one that holds something. -/
def hasDirectory (d : Disk) (p : Path) : Bool :=
  (d.home :: d.directories ++ d.files.map (·.1.dropLast)).any p.isPrefixOf

def hasFile (d : Disk) (p : Path) : Bool := d.files.any (·.1 == p)

/-- The directory reached from another by names, one after another. A dot stays where it is, two dots
lead up. -/
def walk (d : Disk) : Path → List String → Except String Path
  | p, [] => .ok p
  | p, name :: rest =>
    if name == "" || name == "." then d.walk p rest
    else if name == ".." then d.walk p.dropLast rest
    else if nameLimit < name.utf8ByteSize then .error tooLong
    else if d.hasDirectory (p ++ [name]) then d.walk (p ++ [name]) rest
    else .error (if d.hasFile (p ++ [name]) then notDirectory else missing)

/-- The place of a file with a name in a directory, where a file is or can be. -/
def place (d : Disk) (p : Path) (name : String) : Except String Path :=
  if ["", ".", ".."].contains name then .error isDirectory
  else if nameLimit < name.utf8ByteSize then .error tooLong
  else if d.hasDirectory (p ++ [name]) then .error isDirectory
  else .ok (p ++ [name])

/-- The names between the slashes of a text. -/
def names : List Char → List (List Char)
  | [] => [[]]
  | '/' :: cs => [] :: names cs
  | c :: cs =>
    match names cs with
    | [] => [[c]]
    | name :: rest => (c :: name) :: rest

def locate (d : Disk) (s : String) : Except String Path :=
  let names := (names s.toList).map String.ofList
  if s.isEmpty then .error missing
  else if textLimit < s.utf8ByteSize then .error tooLong
  else
    match d.walk (if s.startsWith "/" then [] else d.home) names.dropLast with
    | .error reason => .error reason
    | .ok p => d.place p (names.getLast?.getD "")

def read (d : Disk) (s : String) : Except String String :=
  match d.locate s with
  | .error reason => .error reason
  | .ok p =>
    match d.files.lookup p with
    | some text => .ok text
    | none => .error missing

def write (d : Disk) (s text : String) : Except String Disk :=
  match d.locate s with
  | .error reason => .error reason
  | .ok p => .ok { d with files := (p, text) :: d.files.filter (·.1 != p) }

instance : FileStore Disk := ⟨read, write⟩

end Disk
end Lindenmayer.CommandLine
