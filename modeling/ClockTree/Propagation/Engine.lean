import ClockTree.Propagation.Pass

/-!
# Propagation

An engine runs its passes in order over the same registry. Afterwards the fastest clock is the delay
target.
-/
namespace ClockTree

inductive PropagationFault where
  | noTop
  | noClocks
deriving DecidableEq, Repr

def PropagationFault.message : PropagationFault → String
  | .noTop => "propagate_clocks: no top module selected"
  | .noClocks => "propagate_clocks: no clocks to propagate; declare one with create_clock"

structure DelayTarget where
  clock : String
  period : Float
deriving DecidableEq

def DelayTarget.picoseconds (t : DelayTarget) : Int := ClockTree.picoseconds t.period

namespace Notice

def started (pass : String) : Diagnostic where
  severity := .note
  code := passStarted
  message := "propagation pass `" ++ pass ++ "`"

def targeted (t : DelayTarget) : Diagnostic where
  severity := .note
  code := delayTarget
  message := "delay target " ++ toString t.picoseconds ++ " ps from clock `" ++ t.clock ++ "`"

end Notice

structure PassReport where
  name : String
  derived : Nat
deriving DecidableEq, Repr

structure PropagationReport where
  passes : List PassReport
  delayTarget : Option DelayTarget
deriving DecidableEq

def PropagationReport.generated (s : PropagationReport) : Nat :=
  s.passes.foldl (fun n p => n + p.derived) 0

abbrev Engine := List Pass

namespace Engine

def builtin : Engine :=
  [⟨"buffers", RuleSet.buffers⟩, ⟨"dividers", RuleSet.dividers⟩,
    ⟨"post-buffers", RuleSet.buffers⟩]

structure Progress where
  registry : Registry
  passes : List PassReport := []
  log : List Diagnostic := []

def Progress.step (d : Design) (k : Progress) (p : Pass) : Progress :=
  let walk := p.walk d k.registry
  { registry := walk.registry
    passes := k.passes ++ [⟨p.name, walk.derived⟩]
    log := k.log ++ Notice.started p.name :: walk.log }

def progress (e : Engine) (d : Design) (r : Registry) : Progress :=
  e.foldl (Progress.step d) ⟨r, [], []⟩

def run (e : Engine) (d : Design) (r : Registry) :
    Except PropagationFault (PropagationReport × Registry × List Diagnostic) :=
  if d.topModule?.isNone then .error .noTop
  else if r.isEmpty then .error .noClocks
  else
    let k := e.progress d r
    let target := k.registry.fastest?.map fun c => DelayTarget.mk c.name c.wave.period
    .ok (⟨k.passes, target⟩, k.registry, k.log ++ target.toList.map Notice.targeted)

end Engine
end ClockTree
