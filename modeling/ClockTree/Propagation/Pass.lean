import ClockTree.Clock.Registration
import ClockTree.Netlist.Fanout
import ClockTree.Rule.Set

/-!
# One propagation pass

A pass walks from every wire that carries a clock over the cells that read it. A cell with a rule
that accepts the port gives a derived clock to the wires on each output of the rule, and these wires
are visited in turn. Each wire receives at most one clock in a pass, and a wire is left as it is
when its clock is explicit, stems from a clock that arrives at the cell, or is an ancestor of the
clock that would be derived from.
-/
namespace ClockTree

namespace Notice

def passStarted : Code := ⟨.propagation, 1⟩
def malformedElement : Code := ⟨.propagation, 2⟩
def clockDerived : Code := ⟨.propagation, 4⟩
def delayTarget : Code := ⟨.propagation, 5⟩

def malformed (cell : Cell) (reason source port : String) : Diagnostic where
  severity := .warning
  code := malformedElement
  message := cell.kind ++ " `" ++ cell.name ++ "`: " ++ reason ++ "; clock `" ++ source
    ++ "` not propagated through " ++ port

def underivable (cell : Cell) (reason : String) : Diagnostic where
  severity := .warning
  code := malformedElement
  message := cell.kind ++ " `" ++ cell.name ++ "`: invalid argument: " ++ reason

def rederived (name path oldParent source : String) : Diagnostic where
  severity := .warning
  code := wireMoved
  message := "generated clock `" ++ name ++ "` on `" ++ path ++ "` replaced: derived from `"
    ++ oldParent ++ "`, now from `" ++ source ++ "`"
  notes := ["no clock reaching the cell's clock inputs matches its parent"]

def derived (clock : Clock) (source : String) (cell : Cell) : Diagnostic where
  severity := .note
  code := clockDerived
  message := "derived clock `" ++ clock.name ++ "` (period " ++ Number.display clock.wave.period
    ++ " ns) from `" ++ source ++ "` through " ++ cell.kind ++ " `" ++ cell.name ++ "`"

end Notice

namespace Registry

def candidate (base : String) (n : Nat) : String :=
  if n = 0 then base else base ++ "_" ++ toString n

/-- Whether a name may be given to the clock on one wire: it is unused, or it belongs to a clock on
exactly this wire. -/
def mayName (r : Registry) (w : WireKey) (name : String) : Bool :=
  match r.named? name with
  | some c => c.wires == [w]
  | none => true

/-- The first of the names from the `n`-th on that may be given; the fuel bounds the search. -/
def freeNameFrom (r : Registry) (base : String) (w : WireKey) : Nat → Nat → String
  | 0, n => candidate base n
  | fuel + 1, n =>
    if r.mayName w (candidate base n) then candidate base n else r.freeNameFrom base w fuel (n + 1)

def freeName (r : Registry) (base : String) (w : WireKey) : String :=
  r.freeNameFrom base w r.clocks.length 0

end Registry

/-- A clock that leaves a cell: the clock it stems from, the wave on the output, and the names of
all clocks that arrive at the cell. -/
structure Departure where
  source : String
  wave : Wave Float
  cell : Cell
  arriving : List String

def Registry.settles (r : Registry) (dep : Departure) (c : Clock) : Bool :=
  match c.origin with
  | .explicit => true
  | .generated parent => dep.arriving.contains parent || r.leadsTo c.name dep.source

/-- The state of a pass: wires still to be visited, and wires that keep the clock they carry. -/
structure Walk where
  registry : Registry
  queue : List WireKey
  assigned : List WireKey := []
  log : List Diagnostic := []
  derived : Nat := 0

namespace Walk

def start (r : Registry) : Walk where
  registry := r
  queue := r.wires

def report (k : Walk) (d : Diagnostic) : Walk := { k with log := k.log ++ [d] }

def derive (k : Walk) (d : Design) (dep : Departure) (w : WireKey) (name : String) : Walk :=
  let spec := ClockDeclaration.generated name [w] dep.wave dep.source
  match k.registry.add d spec with
  | .error fault => k.report (Notice.underivable dep.cell fault.message)
  | .ok (clock, registry, log) =>
    { registry
      queue := k.queue ++ [w]
      assigned := w :: k.assigned
      log := k.log ++ log ++ [Notice.derived clock dep.source dep.cell]
      derived := k.derived + 1 }

def settle (k : Walk) (d : Design) (dep : Departure) (w : WireKey) : Walk :=
  match d.path? w with
  | none => k
  | some path =>
    let name := k.registry.freeName path w
    let k := match k.registry.carrier? w with
      | some old =>
        if old.name = name then
          k.report (Notice.rederived name path (old.parent?.getD "?") dep.source)
        else k
      | none => k
    k.derive d dep w name

def visitTarget (d : Design) (dep : Departure) (k : Walk) (w : WireKey) : Walk :=
  if k.assigned.contains w then k
  else match k.registry.carrier? w with
    | some c =>
      if k.registry.settles dep c then { k with assigned := w :: k.assigned } else k.settle d dep w
    | none => k.settle d dep w

def outputWave (t : Transform) (wave : Wave Float) (ps : Params) : Except String (Wave Float) :=
  match t.apply wave ps with
  | .error e => .error e.message
  | .ok w => match w.fault? with
    | some fault => .error fault.message
    | none => .ok w

def visitOutput (d : Design) (module : Nat) (source : Clock) (cell : Cell) (arriving : List String)
    (k : Walk) (out : Outlet) : Walk :=
  let targets := (cell.wiresOn out.port).map (WireKey.mk module)
  if targets.isEmpty then k
  else match outputWave out.transform source.wave cell.params with
    | .error reason => k.report (Notice.malformed cell reason source.name out.port)
    | .ok wave => targets.foldl (visitTarget d ⟨source.name, wave, cell, arriving⟩) k

def arriving (r : Registry) (module : Nat) (rule : Rule) (cell : Cell) : List String :=
  (cell.inputs.filter fun c => rule.entersOn c.port).filterMap fun c =>
    (r.carrier? ⟨module, c.wire⟩).map (·.name)

def visitReader (rules : RuleSet) (d : Design) (module : Nat) (source : Clock) (k : Walk)
    (reader : Cell × Reader) : Walk :=
  let (cell, input) := reader
  match rules.get? cell.kind with
  | none => k
  | some rule =>
    if rule.entersOn input.port then
      rule.outputs.foldl
        (visitOutput d module source cell (arriving k.registry module rule cell)) k
    else k

def visitWire (rules : RuleSet) (d : Design) (f : Fanout) (k : Walk) (w : WireKey) : Walk :=
  match k.registry.carrier? w with
  | none => k
  | some source => (d.readersIn f w).foldl (visitReader rules d w.module source) k

def run (rules : RuleSet) (d : Design) (f : Fanout) : Nat → Walk → Walk
  | 0, k => k
  | fuel + 1, k => match k.queue with
    | [] => k
    | w :: queue => run rules d f fuel (visitWire rules d f { k with queue } w)

end Walk

structure Pass where
  name : String
  rules : RuleSet

/-- The walk of a pass over a design. Besides the wires that carry a clock at the start, each wire
of the design is visited at most once. -/
def Pass.walk (p : Pass) (d : Design) (r : Registry) : Walk :=
  Walk.run p.rules d d.fanout (r.wires.length + d.wireRefs.length) (.start r)

end ClockTree
