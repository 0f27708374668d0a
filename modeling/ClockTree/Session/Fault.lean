import ClockTree.Propagation.Engine
import ClockTree.Script.Argument

/-!
# Why an operation fails

Every failure of a session is one of these causes. Its kind says what was wrong in general; the
message gives the details.
-/
namespace ClockTree

inductive CommandFault where
  | missingValue (command option : String)
  | invalidNumber (command what value : String)
  | unknownOption (command option : String)
  | edgeTimes (value : String)
  | periodNotPositive (period : Float)
  | missingPeriod
  | noTargets
  | selectsNoWires (command query : String)
  | notClockPatterns (query : String)
  | unexpectedArgument (value : String)
  | portsUsage
  | missingDelay
  | conflictingRelations
  | groupTakesClocks (query : String)
deriving DecidableEq

def CommandFault.message : CommandFault → String
  | .missingValue command option => command ++ ": option " ++ option ++ " needs a value"
  | .invalidNumber command what value => command ++ ": invalid " ++ what ++ " `" ++ value ++ "`"
  | .unknownOption command option => command ++ ": unknown option " ++ option
  | .edgeTimes value => "create_clock: -waveform needs two edge times, got `" ++ value ++ "`"
  | .periodNotPositive p => "create_clock: period must be positive, got " ++ Number.display p
  | .missingPeriod => "create_clock: missing -period"
  | .noTargets => "create_clock: target selection is empty"
  | .selectsNoWires command query => command ++ ": " ++ query ++ " does not select wires"
  | .notClockPatterns query => "get_clocks: expected clock name patterns, got " ++ query
  | .unexpectedArgument value => "all_clocks: unexpected argument " ++ value
  | .portsUsage => "get_ports: usage is get_ports [port_name]"
  | .missingDelay => "set_max_delay: missing delay value"
  | .conflictingRelations =>
    "set_clock_groups: only one of -asynchronous, -logically_exclusive and -physically_exclusive "
      ++ "may be given"
  | .groupTakesClocks query => "set_clock_groups: -group takes clocks, got " ++ query

inductive Absence where
  | command (name : String)
  | targetWire
  | clockTarget (clock target : String)
deriving DecidableEq, Repr

def Absence.message : Absence → String
  | .command name => "command `" ++ name ++ "`"
  | .targetWire => "create_clock: target wire"
  | .clockTarget clock target => "clock `" ++ clock ++ "`: no wire matches `" ++ target ++ "`"

inductive Fault where
  | declaration (e : DeclarationFault)
  | pattern (e : PatternFault)
  | command (e : CommandFault)
  | exception (e : ExceptionFault)
  | configuredPeriod (clock : String)
  | absent (e : Absence)
  | propagation (e : PropagationFault)
  | noTopForPorts
  | unwritable (reason : String)
deriving DecidableEq

inductive FaultKind where
  | invalidArgument
  | notFound
  | precondition
  | io
deriving DecidableEq, Repr

namespace Fault

def kind : Fault → FaultKind
  | .declaration _ | .pattern _ | .command _ | .exception _ | .configuredPeriod _ =>
    .invalidArgument
  | .absent _ => .notFound
  | .propagation _ | .noTopForPorts => .precondition
  | .unwritable _ => .io

def detail : Fault → String
  | .declaration e => e.message
  | .pattern e => e.message
  | .command e => e.message
  | .exception e => e.message
  | .configuredPeriod clock =>
    "clock `" ++ clock ++ "`: needs exactly one positive `period` or `frequency`"
  | .absent e => e.message
  | .propagation e => e.message
  | .noTopForPorts => "get_ports: no top module selected"
  | .unwritable reason => reason

def message (e : Fault) : String :=
  match e.kind with
  | .invalidArgument => "invalid argument: " ++ e.detail
  | .notFound => "not found: " ++ e.detail
  | .precondition => e.detail
  | .io => "I/O error: " ++ e.detail

end Fault
end ClockTree
