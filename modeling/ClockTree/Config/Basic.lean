import ClockTree.Clock.Frequency
import ClockTree.Propagation.Engine

/-!
# Configurations

A configuration adds rules for kinds of cells, chooses the passes, declares clocks and sets the
options of the writer.
-/
namespace ClockTree

structure WriterSettings where
  includeGenerated : Bool := false
  /-- Decimal places of times. -/
  precision : Nat := 3
deriving DecidableEq, Repr

structure ConfiguredClock where
  target : List String
  period : Option Float
  frequency : Option String
  edges : Option (Float × Float)
deriving DecidableEq

def ConfiguredClock.period? (c : ConfiguredClock) : Option Float :=
  match c.period, c.frequency with
  | some p, none => some p
  | none, some f => (Frequency.read f).toOption.bind Frequency.period?
  | _, _ => none

structure BufferRule where
  cell : String
  inputs : List String
  outputs : List String
deriving DecidableEq, Repr

def BufferRule.rule (b : BufferRule) : Rule := .uniform b.cell b.inputs b.outputs .transparent

structure DividerRule where
  cell : String
  inputs : List String
  outputs : List String
  divisorParam : Option String
  invertParam : Option String
  divisor : Option Nat
deriving DecidableEq, Repr

def DividerRule.rule (v : DividerRule) : Rule :=
  .uniform v.cell v.inputs v.outputs (.divider v.divisorParam v.invertParam v.divisor)

structure Config where
  builtinRules : Bool := true
  passes : List String := Engine.builtin.map (·.name)
  buffers : List BufferRule := []
  dividers : List DividerRule := []
  options : WriterSettings := {}
  clocks : List (String × ConfiguredClock) := []
deriving DecidableEq

namespace Config

def extend (c : Config) (builtin : RuleSet) (rules : List Rule) : RuleSet :=
  rules.foldl RuleSet.insert (if c.builtinRules then builtin else [])

def engine (c : Config) : Engine :=
  let buffers := c.extend RuleSet.buffers (c.buffers.map BufferRule.rule)
  let dividers := c.extend RuleSet.dividers (c.dividers.map DividerRule.rule)
  [⟨"buffers", buffers⟩, ⟨"dividers", dividers⟩, ⟨"post-buffers", buffers⟩].filter
    fun p : Pass => c.passes.contains p.name

end Config
end ClockTree
