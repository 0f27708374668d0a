import ClockTree.Command.Item
import ClockTree.Command.Targets

/-!
# Declaring a clock

The command `create_clock` puts a clock with a period on the wires that its targets select. A name
and the two edges may be given. When no wire is selected, the wires named like the clock are taken.
-/
namespace ClockTree

namespace Notice

def unmatchedTarget : Code := ⟨.clock, 1⟩

def unmatched (pattern : String) : Diagnostic where
  severity := .warning
  code := unmatchedTarget
  message := "create_clock: no wire matches `" ++ pattern ++ "`"

end Notice

namespace Command.CreateClock

structure Options where
  name : Option String := none
  period : Option Float := none
  edges : Option (Float × Float) := none
  targets : List Argument := []
deriving DecidableEq

def readEdges (a : Argument) : Except CommandFault (Float × Float) :=
  match a.listItems.mapM Number.read? with
  | some [rise, fall] => .ok (rise, fall)
  | _ => .error (.edgeTimes a.text)

def Options.add (o : Options) : Item → Except CommandFault Options
  | .incomplete name => .error (.missingValue "create_clock" name)
  | .option name value =>
    if name = "-name" then .ok { o with name := some value.text }
    else if name = "-period" then
      return { o with period := some (← readNumber "create_clock" "period" value) }
    else return { o with edges := some (← readEdges value) }
  | .single a =>
    if a = .word "-add" then .ok o
    else if a.isSwitch then .error (.unknownOption "create_clock" a.text)
    else .ok { o with targets := o.targets ++ [a] }

def Options.checkedPeriod (o : Options) : Except CommandFault Float :=
  match o.period with
  | none => .error .missingPeriod
  | some p => if 0 < p then .ok p else .error (.periodNotPositive p)

def readOptions (args : List Argument) : Except CommandFault (Options × Float) := do
  let o ← (items ["-name", "-period", "-waveform"] args).foldlM Options.add {}
  return (o, ← o.checkedPeriod)

/-- Wires found so far, warnings about patterns without wires, and the fault that ended the
search. -/
structure Found where
  wires : List WireKey := []
  warnings : List Diagnostic := []
  fault : Option Fault := none

def Found.append (a b : Found) : Found :=
  if a.fault.isSome then a else ⟨a.wires ++ b.wires, a.warnings ++ b.warnings, b.fault⟩

def Found.ofExcept : Except Fault (List WireKey) → Found
  | .ok wires => { wires }
  | .error e => { fault := some e }

def findPattern (s : Session) (pattern : String) : Found :=
  let found := Found.ofExcept (s.wiresMatching pattern)
  if found.fault.isNone && found.wires.isEmpty then { warnings := [Notice.unmatched pattern] }
  else found

def findTarget (s : Session) (a : Argument) : Found :=
  match a with
  | .word _ => (a.listItems.map (findPattern s)).foldr Found.append {}
  | .query q => .ofExcept (selectWires s.design "create_clock" q)

def findTargets (s : Session) (targets : List Argument) : Found :=
  (targets.map (findTarget s)).foldr Found.append {}

def Options.spec (o : Options) (d : Design) (period : Float) (found : List WireKey) :
    Except Fault ClockDeclaration :=
  let wires := if found.isEmpty then ((o.name.map d.wiresCalled).getD []) else found
  match wires with
  | [] => .error (.command .noTargets)
  | w :: _ => match o.name <|> d.path? w with
    | some name => .ok (.explicit name wires period o.edges)
    | none => .error (.absent .targetWire)

def run (s : Session) (args : List Argument) : Session × Except Fault Unit :=
  match readOptions args with
  | .error e => (s, .error (.command e))
  | .ok (o, period) =>
    let found := findTargets s o.targets
    let s := s.report found.warnings
    match found.fault with
    | some e => (s, .error e)
    | none => match o.spec s.design period found.wires >>= s.declare with
      | .error e => (s, .error e)
      | .ok (_, s) => (s, .ok ())

end Command.CreateClock
end ClockTree
