import ClockTree.Clock.Registry
import ClockTree.Diagnostic.Basic

/-!
# Registering a clock

A declaration is checked first. Then the clock of its name gives up its wires, its wires are taken
one by one from the clocks that carry them, the new clock is put in its place, and the clocks that
are left without wires are removed. Each step works on the registry that the steps before it have
left and may fail; what they have changed and reported stays.
-/
namespace ClockTree

inductive DeclarationFault where
  | wave (clock : String) (fault : WaveFault Float)
  | noWires (clock : String)
  | foreignWire (clock : String) (wire : WireKey)
  /-- The indices do not lead to a clock that has to be there. -/
  | misplaced (clock : String)
deriving DecidableEq

def WireKey.describe (w : WireKey) : String :=
  "WireRef \x7b module: ModuleId(" ++ toString w.module ++ "), wire: WireId(" ++ toString w.wire
    ++ ") \x7d"

def DeclarationFault.message : DeclarationFault → String
  | .wave clock fault => "clock `" ++ clock ++ "`: " ++ fault.message
  | .noWires clock => "clock `" ++ clock ++ "` has no target wires"
  | .foreignWire clock w =>
    "clock `" ++ clock ++ "` targets a wire outside the design (" ++ w.describe ++ ")"
  | .misplaced clock => "clock `" ++ clock ++ "` is not where the indices place it"

namespace Notice

def wireMoved : Code := ⟨.clock, 3⟩
def clockDropped : Code := ⟨.clock, 4⟩

def moved (path owner name : String) : Diagnostic where
  severity := .warning
  code := wireMoved
  message := "wire `" ++ path ++ "` moved from clock `" ++ owner ++ "` to clock `" ++ name ++ "`"
  notes := ["a wire carries at most one clock; the latest declaration wins"]

def dropped (name : String) : Diagnostic where
  severity := .note
  code := clockDropped
  message := "clock `" ++ name ++ "` no longer drives any wire and was removed"

end Notice

def ClockDeclaration.clock (spec : ClockDeclaration) : Clock :=
  ⟨spec.name, spec.wires.eraseDups, spec.wave, spec.origin⟩

namespace Registry

def refuse? (d : Design) (spec : ClockDeclaration) : Option DeclarationFault :=
  match spec.wave.fault? with
  | some fault => some (.wave spec.name fault)
  | none =>
    if spec.wires.isEmpty then some (.noWires spec.name)
    else (spec.wires.find? fun w => (d.wire? w).isNone).map (.foreignWire spec.name)

end Registry

structure Ledger where
  registry : Registry
  log : List Diagnostic

abbrev Registration := EStateM DeclarationFault Ledger

namespace Registration

def report (n : Diagnostic) : Registration Unit := modify fun l => { l with log := l.log ++ [n] }

/-- What a look-up in the indices has found, which it must. -/
def found {α : Type} (name : String) : Option α → Registration α
  | some a => return a
  | none => throw (.misplaced name)

def update (name : String) (step : Registry → Option Registry) : Registration Unit := do
  let registry ← found name (step (← get).registry)
  modify fun l => { l with registry }

/-- Takes a wire from the clock that carries it, which is added to the emptied ones if the wire was
its last. The index keeps the wire, which is about to be given to another clock. -/
def take (d : Design) (name : String) (emptied : List String) (w : WireKey) :
    Registration (List String) := do
  let r := (← get).registry
  match r.byWire[w]? with
  | none => return emptied
  | some owner =>
    report (Notice.moved ((d.path? w).getD w.describe) owner name)
    let i ← found name r.byName[owner]?
    let c ← found name r.clocks[i]?
    let rest := c.wires.filter (· != w)
    modify fun l => { l with registry.clocks := r.clocks.set i { c with wires := rest } }
    return if rest.isEmpty then emptied ++ [owner] else emptied

def drop (name owner : String) : Registration Unit := do
  report (Notice.dropped owner)
  update name (·.remove owner)

def enroll (d : Design) (c : Clock) : Registration Clock := do
  update c.name (·.release c.name)
  let emptied ← c.wires.foldlM (take d c.name) []
  update c.name (·.place c)
  forM emptied (drop c.name)
  found c.name ((← get).registry.named? c.name)

end Registration

namespace Registry

/-- Registers a clock. A declaration that is refused is refused before anything is changed. -/
def attempt (d : Design) (spec : ClockDeclaration) : Registration Clock :=
  match refuse? d spec with
  | some fault => throw fault
  | none => .enroll d spec.clock

/-- Registers a clock, for callers that go on with the new registry or else with their own. -/
def add (r : Registry) (d : Design) (spec : ClockDeclaration) :
    Except DeclarationFault (Clock × Registry × List Diagnostic) :=
  match (attempt d spec).run ⟨r, []⟩ with
  | .ok clock l => .ok (clock, l.registry, l.log)
  | .error fault _ => .error fault

end Registry
end ClockTree
