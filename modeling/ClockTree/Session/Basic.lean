import ClockTree.Config.Basic
import ClockTree.Diagnostic.Log
import ClockTree.Session.Fault

/-!
# Sessions

A session holds the clocks and the exceptions that were declared for a design, together with the
engine that propagates clocks and the options of the writer. Diagnostics go to its log.
-/
namespace ClockTree

structure Session where
  design : Design
  engine : Engine := Engine.builtin
  options : WriterSettings := {}
  clocks : Registry := {}
  exceptions : List TimingException := []
  /-- The delay target of the last successful propagation. -/
  delayTarget : Option DelayTarget := none
  log : DiagnosticLog := {}

namespace Notice

def clockDeclared : Code := ⟨.clock, 2⟩
def noClocks : Code := ⟨.query, 1⟩

def declared (c : Clock) : Diagnostic where
  severity := .note
  code := clockDeclared
  message := "clock `" ++ c.name ++ "`: period " ++ Number.display c.wave.period
    ++ " ns, waveform \x7b" ++ Number.display c.wave.rise ++ " " ++ Number.display c.wave.fall
    ++ "\x7d, " ++ toString c.wires.length ++ " wire(s)"

def emptyRegistry : Diagnostic where
  severity := .warning
  code := noClocks
  message := "get_clocks: no clocks found in design"

end Notice

namespace Session

def report (s : Session) (ds : List Diagnostic) : Session := { s with log := s.log.putAll ds }

def declare (s : Session) (spec : ClockDeclaration) : Except Fault (Clock × Session) :=
  match s.clocks.add s.design spec with
  | .error e => .error (.declaration e)
  | .ok (clock, clocks, log) =>
    .ok (clock, { s with clocks }.report (log ++ [Notice.declared clock]))

def wiresMatching (s : Session) (pattern : String) : Except Fault (List WireKey) :=
  match NamePattern.read pattern with
  | .error e => .error (.pattern e)
  | .ok p => .ok (s.design.wiresMatching p)

def configuredWires (s : Session) (name : String) : List String → Except Fault (List WireKey)
  | [] => .ok []
  | target :: targets => do
    let found ← s.wiresMatching target
    if found.isEmpty then .error (.absent (.clockTarget name target))
    else return found ++ (← s.configuredWires name targets)

def declareConfigured (s : Session) (name : String) (c : ConfiguredClock) :
    Except Fault (Clock × Session) :=
  match c.period? with
  | none => .error (.configuredPeriod name)
  | some period => do
    s.declare (.explicit name (← s.configuredWires name c.target) period c.edges)

/-- Declares configured clocks in order, up to the first that cannot be declared. Returns how many
there are. -/
def declareAll (s : Session) (clocks : List (String × ConfiguredClock)) :
    Session × Except Fault Nat :=
  let rec go (s : Session) : List (String × ConfiguredClock) → Session × Except Fault Nat
    | [] => (s, .ok clocks.length)
    | (name, c) :: rest => match s.declareConfigured name c with
      | .error e => (s, .error e)
      | .ok (_, s) => go s rest
  go s clocks

def propagate (s : Session) : Except Fault (PropagationReport × Session) :=
  match s.engine.run s.design s.clocks with
  | .error e => .error (.propagation e)
  | .ok (summary, clocks, log) =>
    .ok (summary, { s with clocks, delayTarget := summary.delayTarget }.report log)

def readPatterns (patterns : List String) : Except Fault (List NamePattern) :=
  patterns.mapM fun p => (NamePattern.read p).mapError .pattern

/-- The clocks that match one of the patterns, or any clocks without patterns; generated ones only
if wanted, and only those on one of the given wires if there are any. -/
def selectClocks (s : Session) (patterns : List NamePattern) (includeGenerated : Bool)
    (wires : Option (List WireKey)) : List Clock :=
  s.clocks.clocks.filter fun c =>
    (includeGenerated || !c.isGenerated)
      && (patterns.isEmpty || patterns.any fun p => p.accepts c.name)
      && match wires with
        | none => true
        | some ws => c.wires.any ws.contains

/-- Looks clocks up. In a session without clocks nothing is found, and the patterns are not read. -/
def lookUp (s : Session) (patterns : List String) (includeGenerated : Bool)
    (wires : Option (List WireKey)) : Session × Except Fault (List Clock) :=
  if s.clocks.isEmpty then (s.report [Notice.emptyRegistry], .ok [])
  else (s, (readPatterns patterns).map fun ps => s.selectClocks ps includeGenerated wires)

def addException (s : Session) (e : TimingException) : Session :=
  { s with exceptions := s.exceptions ++ [e] }

def clearExceptions (s : Session) : Session := { s with exceptions := [] }

def reset (s : Session) : Session :=
  { s with clocks := {}, exceptions := [], delayTarget := none }

end Session
end ClockTree
