import ClockTree.Clock.Wave
import ClockTree.Clock.Frequency
import ClockTree.Netlist.Basic

/-!
# Clocks

A clock has a name, the wires that carry it, a wave, and an origin: it was declared, or it was
derived from a parent clock.
-/
namespace ClockTree

inductive Origin where
  | explicit
  | generated (parent : String)
deriving DecidableEq, Repr

def Origin.parent? : Origin → Option String
  | .explicit => none
  | .generated p => some p

structure Clock where
  name : String
  wires : List WireKey
  wave : Wave Float
  origin : Origin
deriving DecidableEq

namespace Clock

def isGenerated (c : Clock) : Bool := c.origin != .explicit

def parent? (c : Clock) : Option String := c.origin.parent?

def frequency (c : Clock) : Frequency := .ofPeriod c.wave.period

end Clock

structure ClockDeclaration where
  name : String
  wires : List WireKey
  wave : Wave Float
  origin : Origin
deriving DecidableEq

namespace ClockDeclaration

def explicit (name : String) (wires : List WireKey) (period : Float)
    (edges : Option (Float × Float)) : ClockDeclaration :=
  ⟨name, wires, match edges with
    | some (r, f) => ⟨period, r, f⟩
    | none => .symmetric period, .explicit⟩

def generated (name : String) (wires : List WireKey) (wave : Wave Float) (parent : String) :
    ClockDeclaration :=
  ⟨name, wires, wave, .generated parent⟩

end ClockDeclaration
end ClockTree
