import ClockTree.Netlist.Basic

/-!
# Building a design

A module or a wire whose name is taken is not added again: its position is returned. A wire that is
added again keeps the larger width, and takes the port direction if one is given.
-/
namespace ClockTree.Design

def declareModule (d : Design) (name : String) : Nat × Design :=
  match d.moduleIndex? name with
  | some i => (i, d)
  | none =>
    let id := d.modules.length
    (id, { d with
      modules := d.modules ++ [{ id, name }]
      moduleIndex := d.moduleIndex.insert name id })

def markTop (d : Design) (i : Nat) : Design := { d with top := some i }

def modifyModule (d : Design) (i : Nat) (f : Module → Module) : Design :=
  { d with modules := d.modules.modify i f }

def widen (width : Nat) (port : Option Direction) (w : Wire) : Wire :=
  { w with port := port <|> w.port, width := max w.width width }

def declareWire (d : Design) (i : Nat) (name : String) (width : Nat) (port : Option Direction) :
    Nat × Design :=
  match d.module? i with
  | none => (0, d)
  | some m => match m.wireIndex? name with
    | some k =>
      (k, d.modifyModule i fun m => { m with wires := m.wires.modify k (widen width port) })
    | none =>
      let k := m.wires.length
      (k, d.modifyModule i fun m => { m with
        wires := m.wires ++ [⟨name, width, port⟩]
        wireIndex := m.wireIndex.insert name k })

def placeCell (d : Design) (i : Nat) (c : Cell) : Design :=
  d.modifyModule i fun m => { m with cells := m.cells ++ [c] }

end ClockTree.Design

namespace ClockTree.Cell

def setParam (c : Cell) (name : String) (v : Parameter) : Cell :=
  { c with params := c.params.set name v }

def attach (c : Cell) (port : String) (direction : Direction) (wire : Nat) : Cell :=
  { c with connections := c.connections ++ [⟨port, direction, wire⟩] }

end ClockTree.Cell
