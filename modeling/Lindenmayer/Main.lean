import Lindenmayer.CommandLine.Run

/-! The program: the command line on the real files. -/
namespace Lindenmayer.CommandLine

/-- The reason for which the system refuses an operation on files. -/
private def reason : IO.Error → String
  | .noFileOrDirectory _ _ _ => Disk.missing
  | .inappropriateType _ 20 _ => Disk.notDirectory
  | .inappropriateType _ 21 _ => Disk.isDirectory
  | .invalidArgument _ 36 _ => Disk.tooLong
  | .permissionDenied _ _ _ => "Permission denied (os error 13)"
  | .userError _ => "stream did not contain valid UTF-8"
  | e => toString e

/-- What an operation on files gave, or why it was refused. -/
private def attempt {α : Type} (operation : IO α) : IO (Except String α) := do
  match ← operation.toBaseIO with
  | .ok a => return .ok a
  | .error e => return .error (reason e)

private def fresh : IO ChaCha := do
  return .ofBytes (← IO.getRandomBytes 32)

private def report (o : Outcome) : IO UInt32 := do
  IO.print o.stdout
  IO.eprint o.stderr
  return UInt32.ofNat o.code

end Lindenmayer.CommandLine

open Lindenmayer.CommandLine

def main (args : List String) : IO UInt32 := do
  match Arguments.parse? args with
  | none => report refused
  | some (.notice n) => report n.outcome
  | some (.work a) =>
    let file ← match a.presets? with
      | none => pure (.error "")
      | some path => attempt (IO.FS.readFile path)
    match a.respond file (← fresh) with
    | .done outcome => report outcome
    | .write path text warnings =>
      report (written path warnings (← attempt (IO.FS.writeFile path text)))
