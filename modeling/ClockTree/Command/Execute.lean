import ClockTree.Command.Constrain
import ClockTree.Command.CreateClock
import ClockTree.Command.Lookup

/-!
# Executing commands

The nine commands of the constraint language. A command that fails changes neither clocks nor
exceptions nor the delay target; what it reported before it failed stays reported.
-/
namespace ClockTree

inductive Command where
  | createClock
  | getClocks
  | allClocks
  | getPorts
  | getNets
  | propagateClocks
  | setFalsePath
  | setMaxDelay
  | setClockGroups
deriving DecidableEq, Repr

namespace Command

def name : Command → String
  | .createClock => "create_clock"
  | .getClocks => "get_clocks"
  | .allClocks => "all_clocks"
  | .getPorts => "get_ports"
  | .getNets => "get_nets"
  | .propagateClocks => "propagate_clocks"
  | .setFalsePath => "set_false_path"
  | .setMaxDelay => "set_max_delay"
  | .setClockGroups => "set_clock_groups"

def all : List Command :=
  [.createClock, .getClocks, .allClocks, .getPorts, .getNets, .propagateClocks, .setFalsePath,
    .setMaxDelay, .setClockGroups]

def ofName? (name : String) : Option Command := all.find? (·.name == name)

inductive Output where
  | nothing
  | names (ns : List String)
deriving DecidableEq, Repr

end Command

namespace Notice

def argumentsIgnored : Code := ⟨.script, 4⟩

def ignoredArguments : Diagnostic where
  severity := .warning
  code := argumentsIgnored
  message := "propagate_clocks: command accepts no arguments; all will be ignored"

end Notice

namespace Session
open Command

def record (s : Session) : Except Fault TimingException → Session × Except Fault Output
  | .error e => (s, .error e)
  | .ok e => (s.addException e, .ok .nothing)

def propagateWith (s : Session) (args : List Argument) : Session × Except Fault Output :=
  let s := if args.isEmpty then s else s.report [Notice.ignoredArguments]
  match s.propagate with
  | .error e => (s, .error e)
  | .ok (_, s) => (s, .ok .nothing)

def perform (s : Session) (c : Command) (args : List Argument) : Session × Except Fault Output :=
  let named (r : Session × Except Fault (List String)) : Session × Except Fault Output :=
    (r.1, r.2.map .names)
  match c with
  | .createClock => let (s, r) := CreateClock.run s args; (s, r.map fun _ => .nothing)
  | .getClocks => named (Lookup.clocks s args)
  | .allClocks => named (s, Lookup.everyClock s args)
  | .getPorts => named (Lookup.ports s args)
  | .getNets => named (Lookup.nets s args)
  | .propagateClocks => s.propagateWith args
  | .setFalsePath => s.record (Constrain.falsePath args)
  | .setMaxDelay => s.record (Constrain.maxDelay args)
  | .setClockGroups => s.record (Constrain.clockGroups args)

def execute (s : Session) (name : String) (args : List Argument) : Session × Except Fault Output :=
  match Command.ofName? name with
  | none => (s, .error (.absent (.command name)))
  | some c => s.perform c args

end Session
end ClockTree
