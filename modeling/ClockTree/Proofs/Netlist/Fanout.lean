import ClockTree.Netlist.Fanout
import Mathlib.Data.List.Basic

/-!
# The index of readers is complete

The sweep over a design enters one row for each input of a cell. What the index then lists for a
wire are the rows of this wire in the order of the sweep, so it lists every input that is connected
to the wire and nothing else, and each cell that it lists is there.
-/
namespace ClockTree

namespace Fanout

def enterRow (f : Fanout) (row : WireKey × Reader) : Fanout := f.enter row.1 row.2

theorem entries_empty (w : WireKey) : ({} : Fanout).entries w = [] := by
  simp [entries]

theorem entries_enter (f : Fanout) (v w : WireKey) (r : Reader) :
    (f.enter v r).entries w = f.entries w ++ if v = w then [r] else [] := by
  unfold enter entries
  rw [Std.TreeMap.getD_insert]
  by_cases hv : v = w
  · simp [hv]
  · simp [hv]

theorem entries_enterRows (f : Fanout) (rows : List (WireKey × Reader)) (w : WireKey) :
    (rows.foldl enterRow f).entries w =
      f.entries w ++ (rows.filter (·.1 = w)).map (·.2) := by
  induction rows generalizing f with
  | nil => simp
  | cons row rows ih =>
    rw [List.foldl_cons, ih, enterRow, entries_enter]
    by_cases hrow : row.1 = w <;> simp [hrow]

end Fanout

def Cell.rows (module : Nat) (cell : Cell × Nat) : List (WireKey × Reader) :=
  cell.1.inputs.map fun c => (⟨module, c.wire⟩, ⟨cell.2, c.port⟩)

namespace Design
variable {d : Design} {w : WireKey}

def rows (d : Design) : List (WireKey × Reader) :=
  d.modules.zipIdx.flatMap fun (m, i) => m.cells.zipIdx.flatMap (Cell.rows i)

theorem fanout_eq (d : Design) : d.fanout = d.rows.foldl Fanout.enterRow {} := by
  unfold fanout rows
  rw [List.foldl_flatMap]
  refine List.foldl_ext _ _ _ fun f m _ => ?_
  rw [List.foldl_flatMap]
  refine List.foldl_ext _ _ _ fun f cell _ => ?_
  rw [Cell.rows, List.foldl_map]
  rfl

theorem fanout_entries (d : Design) (w : WireKey) :
    d.fanout.entries w = (d.rows.filter (·.1 = w)).map (·.2) := by
  rw [fanout_eq, Fanout.entries_enterRows, Fanout.entries_empty, List.nil_append]

theorem mem_rows {r : Reader} : (w, r) ∈ d.rows ↔ ∃ m, d.module? w.module = some m ∧
    ∃ cell, m.cells[r.cell]? = some cell ∧ ∃ c ∈ cell.connections, c.direction.reads ∧
      c.wire = w.wire ∧ c.port = r.port := by
  obtain ⟨i, k⟩ := w
  obtain ⟨j, port⟩ := r
  simp only [rows, Cell.rows, Cell.inputs, List.mem_flatMap, Prod.exists,
    List.mk_mem_zipIdx_iff_getElem?, List.mem_map, List.mem_filter, Prod.mk.injEq,
    WireKey.mk.injEq, Reader.mk.injEq, module?]
  constructor
  · rintro ⟨m, i, hm, cell, j, hcell, c, ⟨hc, hreads⟩, ⟨rfl, hwire⟩, rfl, hport⟩
    exact ⟨m, hm, cell, hcell, c, hc, hreads, hwire, hport⟩
  · rintro ⟨m, hm, cell, hcell, c, hc, hreads, hwire, hport⟩
    exact ⟨m, i, hm, cell, j, hcell, c, ⟨hc, hreads⟩, ⟨rfl, hwire⟩, rfl, hport⟩

theorem mem_fanout {r : Reader} : r ∈ d.fanout.entries w ↔ ∃ m, d.module? w.module = some m ∧
    ∃ cell, m.cells[r.cell]? = some cell ∧ ∃ c ∈ cell.connections, c.direction.reads ∧
      c.wire = w.wire ∧ c.port = r.port := by
  rw [fanout_entries, ← mem_rows]
  simp

theorem mem_readers {reader : Cell × Reader} :
    reader ∈ d.readers w ↔ ∃ m, d.module? w.module = some m ∧
      m.cells[reader.2.cell]? = some reader.1 ∧ ∃ c ∈ reader.1.connections, c.direction.reads ∧
        c.wire = w.wire ∧ c.port = reader.2.port := by
  obtain ⟨cell, r⟩ := reader
  unfold readers readersIn
  cases hm : d.module? w.module with
  | none => simp
  | some m =>
    simp only [List.mem_filterMap, Option.map_eq_some_iff, Prod.mk.injEq, mem_fanout, hm,
      Option.some.injEq, exists_eq_left']
    constructor
    · rintro ⟨r, ⟨cell', hcell', hreads⟩, cell, hcell, rfl, rfl⟩
      obtain rfl : cell = cell' := Option.some.inj (hcell.symm.trans hcell')
      exact ⟨hcell, hreads⟩
    · rintro ⟨hcell, hreads⟩
      exact ⟨r, ⟨cell, hcell, hreads⟩, cell, hcell, rfl, rfl⟩

theorem readers_entries (d : Design) (w : WireKey) :
    (d.readers w).map (·.2) = d.fanout.entries w := by
  unfold readers readersIn
  have hcells := fun r => (mem_fanout (d := d) (w := w) (r := r)).mp
  cases hm : d.module? w.module with
  | none =>
    refine (List.eq_nil_iff_forall_not_mem.mpr fun r hr => ?_).symm
    obtain ⟨m, hm', -⟩ := hcells r hr
    cases hm.symm.trans hm'
  | some m =>
    have hfound : ∀ r ∈ d.fanout.entries w,
        ((m.cells[r.cell]?).map (·, r)).map (·.2) = some r := fun r hr => by
      obtain ⟨m', hm', cell, hcell, -⟩ := hcells r hr
      obtain rfl : m = m' := Option.some.inj (hm.symm.trans hm')
      rw [hcell]
      rfl
    exact List.map_filterMap.trans ((List.filterMap_congr hfound).trans List.filterMap_some)

end Design
end ClockTree
