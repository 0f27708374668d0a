import ClockTree.Command.Item
import ClockTree.Command.Targets

/-!
# Looking objects up

`get_clocks`, `all_clocks`, `get_ports` and `get_nets` return names. Finding no port or net is worth
a warning but no failure.
-/
namespace ClockTree

namespace Notice

def nothingMatched : Code := ⟨.query, 2⟩
def noPorts : Code := ⟨.query, 3⟩

def portless : Diagnostic where
  severity := .warning
  code := noPorts
  message := "get_ports: the top module has no ports"

def absentPort (pattern : String) : Diagnostic where
  severity := .warning
  code := nothingMatched
  message := "get_ports: port `" ++ pattern ++ "` does not exist"

def absentNet (patterns : List String) : Diagnostic where
  severity := .warning
  code := nothingMatched
  message := "get_nets: no net matches " ++ " ".intercalate patterns

end Notice

namespace Command.Lookup

structure ClockFilter where
  includeGenerated : Bool := false
  wires : Option (List WireKey) := none
  patterns : List String := []
deriving DecidableEq

def clockPatterns (a : Argument) : Except CommandFault (List String) :=
  match a with
  | .word _ => .ok a.listItems
  | .query q => if q.kind = .clocks then .ok q.patterns else .error (.notClockPatterns q.text)

def ClockFilter.add (s : Session) (f : ClockFilter) : Item → Except Fault ClockFilter
  | .incomplete name => .error (.command (.missingValue "get_clocks" name))
  | .option _ value => do
    let found ← argumentWires s "get_clocks" value
    return { f with wires := some (f.wires.getD [] ++ found) }
  | .single a =>
    if a = .word "-include_generated_clocks" then .ok { f with includeGenerated := true }
    else if a.isSwitch then .error (.command (.unknownOption "get_clocks" a.text))
    else match clockPatterns a with
      | .error e => .error (.command e)
      | .ok ps => .ok { f with patterns := f.patterns ++ ps }

def readFilter (s : Session) (args : List Argument) : Except Fault ClockFilter :=
  (items ["-of", "-of_objects"] args).foldlM (ClockFilter.add s) {}

def clocks (s : Session) (args : List Argument) : Session × Except Fault (List String) :=
  match readFilter s args with
  | .error e => (s, .error e)
  | .ok f =>
    let (s, found) := s.lookUp f.patterns f.includeGenerated f.wires
    (s, found.map fun cs => cs.map (·.name))

def everyClock (s : Session) : List Argument → Except Fault (List String)
  | [] => .ok (s.clocks.clocks.map (·.name))
  | a :: _ => .error (.command (.unexpectedArgument a.text))

def portPattern : List Argument → Except Fault NamePattern
  | [] => .ok .any
  | [.word name] => (NamePattern.read name).mapError .pattern
  | _ => .error (.command .portsUsage)

def ports (s : Session) (args : List Argument) : Session × Except Fault (List String) :=
  match s.design.topModule? with
  | none => (s, .error .noTopForPorts)
  | some top => match portPattern args with
    | .error e => (s, .error e)
    | .ok p =>
      let names := s.design.paths (s.design.portsMatching p)
      let warnings :=
        if !names.isEmpty then []
        else if top.wires.all (·.port.isNone) then [Notice.portless]
        else [Notice.absentPort p.source]
      (s.report warnings, .ok names)

def netPatterns (a : Argument) : Except Fault (List String) :=
  match a with
  | .word _ =>
    if a.isSwitch then .error (.command (.unknownOption "get_nets" a.text)) else .ok a.listItems
  | .query _ => .error (.command (.unknownOption "get_nets" a.text))

def nets (s : Session) (args : List Argument) : Session × Except Fault (List String) :=
  let found : Except Fault (List String × List String) := do
    let given := (← args.mapM netPatterns).flatten
    let patterns := if given.isEmpty then ["*"] else given
    return (patterns, (s.design.paths (← wordWires s patterns)).eraseDups)
  match found with
  | .error e => (s, .error e)
  | .ok (patterns, names) =>
    (if names.isEmpty then s.report [Notice.absentNet patterns] else s, .ok names)

end Command.Lookup
end ClockTree
