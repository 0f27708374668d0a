import ClockTree.Netlist.Basic

/-!
# The cells that read a wire

The index is built in one sweep over the cells of a design, and lists for each wire the inputs that
are connected to it, in the order of the sweep.
-/
namespace ClockTree

structure Reader where
  cell : Nat
  port : String
deriving DecidableEq, Repr

structure Fanout where
  table : Std.TreeMap WireKey (List Reader) := {}

namespace Fanout

def entries (f : Fanout) (w : WireKey) : List Reader := f.table.getD w []

def enter (f : Fanout) (w : WireKey) (r : Reader) : Fanout :=
  ⟨f.table.insert w (f.entries w ++ [r])⟩

def enterCell (module : Nat) (f : Fanout) (cell : Cell × Nat) : Fanout :=
  cell.1.inputs.foldl (fun f c => f.enter ⟨module, c.wire⟩ ⟨cell.2, c.port⟩) f

end Fanout

namespace Design

def fanout (d : Design) : Fanout :=
  d.modules.zipIdx.foldl (fun f (m, i) => m.cells.zipIdx.foldl (Fanout.enterCell i) f) {}

def readersIn (d : Design) (f : Fanout) (w : WireKey) : List (Cell × Reader) :=
  match d.module? w.module with
  | none => []
  | some m => (f.entries w).filterMap fun r => (m.cells[r.cell]?).map (·, r)

def readers (d : Design) (w : WireKey) : List (Cell × Reader) := d.readersIn d.fanout w

end Design
end ClockTree
