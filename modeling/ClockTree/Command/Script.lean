import ClockTree.Command.Execute
import ClockTree.Script.Splitter

/-!
# Running scripts

A script is run command by command. A command that is malformed, unknown or fails is reported at its
place in the script, and the next one is run.
-/
namespace ClockTree

namespace Notice

def unknownCommand : Code := ⟨.script, 1⟩
def commandFailed : Code := ⟨.script, 2⟩
def malformedCommand : Code := ⟨.script, 3⟩
def queryResult : Code := ⟨.script, 5⟩

def malformedAt (span : Span) (e : Script.Malformation) : Diagnostic where
  severity := .error
  code := malformedCommand
  message := e.message
  span

def unknownAt (span : Span) (name : String) : Diagnostic where
  severity := .warning
  code := unknownCommand
  message := "unrecognized SDC command: `" ++ name ++ "`"
  span

def failedAt (span : Span) (e : Fault) : Diagnostic where
  severity := .error
  code := commandFailed
  message := e.message
  span

def resultAt (span : Span) (name : String) (names : List String) : Diagnostic where
  severity := .note
  code := queryResult
  message := name ++ ": " ++ " ".intercalate names
  span

end Notice

inductive Outcome where
  | done
  | failed
  /-- The command is unknown. -/
  | skipped
deriving DecidableEq, Repr

structure ScriptReport where
  commands : Nat := 0
  failed : Nat := 0
  skipped : Nat := 0
deriving DecidableEq, Repr

def ScriptReport.count (s : ScriptReport) : Outcome → ScriptReport
  | .done => { s with commands := s.commands + 1 }
  | .failed => { s with failed := s.failed + 1 }
  | .skipped => { s with skipped := s.skipped + 1 }

namespace Session

def runCommand (file : Nat) (s : Session) (c : Script.Statement) : Session × Outcome :=
  let span : Span := ⟨file, c.start, c.stop⟩
  match Script.readCommand c.text with
  | .error e => (s.report [Notice.malformedAt span e], .failed)
  | .ok (name, args) => match Command.ofName? name with
    | none => (s.report [Notice.unknownAt span name], .skipped)
    | some command => match s.perform command args with
      | (s, .error e) => (s.report [Notice.failedAt span e], .failed)
      | (s, .ok .nothing) => (s, .done)
      | (s, .ok (.names ns)) => (s.report [Notice.resultAt span name ns], .done)

def advance (file : Nat) (k : Session × ScriptReport) (c : Script.Statement) :
    Session × ScriptReport :=
  let (s, outcome) := k.1.runCommand file c
  (s, k.2.count outcome)

def runCommands (file : Nat) (s : Session) (cs : List Script.Statement) :
    Session × ScriptReport :=
  cs.foldl (advance file) (s, {})

def runScript (s : Session) (file : Nat) (source : String) : Session × ScriptReport :=
  s.runCommands file (Script.split source)

end Session
end ClockTree
