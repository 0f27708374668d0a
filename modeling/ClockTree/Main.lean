import ClockTree.Cli.Folder
import ClockTree.Cli.Run

/-!
# The command line program

Carries out jobs with real files and streams.
-/
namespace ClockTree.Cli

def systemNumber? : IO.Error → Option Nat
  | .noFileOrDirectory _ code _ | .inappropriateType _ code _ | .invalidArgument _ code _
  | .permissionDenied _ code _ | .resourceExhausted _ code _ | .otherError code _ =>
    some (min code.toNat (0x100000000 - code.toNat))
  | _ => none

def reasonText (e : IO.Error) : String :=
  match systemNumber? e with
  | some 2 => Folder.absent
  | some 13 => "Permission denied (os error 13)"
  | some 20 => Folder.notDirectory
  | some 21 => Folder.isDirectory
  | some 36 => Folder.tooLong
  | _ => toString e

def attempt {α : Type} (action : IO α) : IO (Except String α) := do
  try return .ok (← action)
  catch e => return .error (reasonText e)

def Job.perform : Job Nat → IO Nat
  | .done code => return code
  | .fail message => do
    IO.eprintln ("error: " ++ message)
    return 1
  | .out text next => do
    IO.print text
    next.perform
  | .err text next => do
    IO.eprint text
    next.perform
  | .find path next => do
    (next (← attempt (IO.FS.readBinFile path)).isOk).perform
  | .read path next => do
    (next (← attempt (IO.FS.readFile path))).perform
  | .create path text next => do
    (next (← attempt (IO.FS.writeFile path text))).perform

end ClockTree.Cli

open ClockTree.Cli in
def main (args : List String) : IO UInt32 := do
  let directory := toString (← IO.currentDir)
  let colored := (← IO.getEnv "TERM").isSome
  let code ← (runArguments ⟨directory, colored⟩ args).perform
  return code.toUInt32
