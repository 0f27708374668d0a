import Std.Data.TreeMap
import ClockTree.Netlist.Parameter

/-!
# Netlists

A design is a list of modules; a module has wires and cells, and a cell connects its ports to wires
of the same module. Modules, wires and cells are numbered by their position. A design has an index
from the names of its modules to their numbers, and a module one from the names of its wires.
-/
namespace ClockTree

inductive Direction where
  | input
  | output
  | inout
deriving DecidableEq, Repr

def Direction.reads : Direction → Bool
  | .output => false
  | _ => true

structure Wire where
  name : String
  width : Nat
  port : Option Direction
deriving DecidableEq, Repr

structure WireKey where
  module : Nat
  wire : Nat
deriving DecidableEq, Repr

instance : Ord WireKey := ⟨compareLex (compareOn WireKey.module) (compareOn WireKey.wire)⟩

instance : Std.TransOrd WireKey :=
  inferInstanceAs (Std.TransCmp (compareLex (compareOn WireKey.module) (compareOn WireKey.wire)))

instance : Std.LawfulEqOrd WireKey where
  eq_of_compare {a b} h := by
    obtain ⟨hm, hw⟩ := compareLex_eq_eq.mp h
    cases a
    cases b
    simp only [compareOn, Std.compare_eq_iff_eq] at hm hw
    simp_all

/-- A port of a cell on one wire. A port on several wires has several connections. -/
structure Connection where
  port : String
  direction : Direction
  wire : Nat
deriving DecidableEq, Repr

structure Cell where
  name : String
  kind : String
  params : Params := []
  connections : List Connection := []
deriving DecidableEq

namespace Cell

def inputs (c : Cell) : List Connection := c.connections.filter (·.direction.reads)

def wiresOn (c : Cell) (port : String) : List Nat :=
  (c.connections.filter (·.port == port)).map (·.wire)

end Cell

structure Module where
  id : Nat
  name : String
  wires : List Wire := []
  cells : List Cell := []
  wireIndex : Std.TreeMap String Nat := {}

def Module.wireIndex? (m : Module) (name : String) : Option Nat := m.wireIndex[name]?

structure Design where
  modules : List Module := []
  top : Option Nat := none
  moduleIndex : Std.TreeMap String Nat := {}

namespace Design

def module? (d : Design) (id : Nat) : Option Module := d.modules[id]?

def topModule? (d : Design) : Option Module := d.top.bind d.module?

def moduleIndex? (d : Design) (name : String) : Option Nat := d.moduleIndex[name]?

def moduleNamed? (d : Design) (name : String) : Option Module :=
  (d.moduleIndex? name).bind d.module?

def wire? (d : Design) (w : WireKey) : Option Wire := do (← d.module? w.module).wires[w.wire]?

def wireRefs (d : Design) : List WireKey :=
  d.modules.zipIdx.flatMap fun (m, i) => (List.range m.wires.length).map (⟨i, ·⟩)

def totalCells (d : Design) : Nat := (d.modules.flatMap (·.cells)).length

def isOuterPort (d : Design) (w : WireKey) : Bool :=
  d.top == some w.module && ((d.wire? w).map (·.port.isSome)).getD false

end Design
end ClockTree
