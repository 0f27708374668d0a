import Mathlib
import ClockTree.Proofs.Netlist.Fanout
import ClockTree.Proofs.Netlist.Loading

/-!
# No look-up in a design misses

Names lead to the modules and wires that have them, each module has its own number, and numbers
that calls returned stay those of the names. A wire and a cell are what the calls for them amount to.
Where cells connect only wires that were returned for their own module, every wire that a connection
names exists, so that neither the index of readers nor a walk through cells leads out of the design.
-/
namespace ClockTree

/-- A cell to which all calls contributed: the last value of each parameter, and the connections
in order. -/
structure Cell.Gathers (c : Cell) (name kind : String) (calls : List CellCall) : Prop where
  named : c.name = name
  typed : c.kind = kind
  once : (c.params.map (·.1)).Nodup
  last : ∀ p, c.params.get? p = (calls.filterMap (·.setting? p)).getLast?
  connected : c.connections = calls.filterMap CellCall.connection?

structure Module.WellFormed (m : Module) (i : Nat) (cs : List BuildCall) : Prop where
  id : m.id = i
  names : (m.wires.map (·.name)).Nodup
  found : ∀ (name : String) (k : Nat), m.wireIndex? name = some k ↔
    ∃ x : Wire, m.wires[k]? = some x ∧ x.name = name
  supplied : ∀ x ∈ m.wires, x.Sums (cs.filterMap (·.supply? i x.name))
  cells : List.Forall₂ (fun c a => c.Gathers a.1 a.2.1 a.2.2) m.cells (cs.filterMap (·.added? i))

structure Design.WellFormed (d : Design) (cs : List BuildCall) : Prop where
  names : (d.modules.map (·.name)).Nodup
  found : ∀ (name : String) (m : Module), d.moduleNamed? name = some m ↔
    m ∈ d.modules ∧ m.name = name
  modules : ∀ i m, d.module? i = some m → m.WellFormed i cs
  top : ∀ i ∈ d.top, (d.module? i).isSome

/-- The wires that cells connect exist, and so does whatever the index of readers leads to. -/
structure Design.Linked (d : Design) : Prop where
  connections : ∀ i m, d.module? i = some m → ∀ c ∈ m.cells, ∀ k ∈ c.connections,
    (d.wire? ⟨i, k.wire⟩).isSome
  fanout : ∀ w, ∀ r ∈ d.fanout.entries w, (d.wire? w).isSome ∧
    ∃ m, d.module? w.module = some m ∧ ∃ c, m.cells[r.cell]? = some c ∧
      ∀ k ∈ c.connections, (d.wire? ⟨w.module, k.wire⟩).isSome

namespace Construction

structure Numbers (b : Construction) : Prop where
  modules : ∀ e ∈ b.modules, b.design.moduleIndex? e.1 = some e.2
  wires : ∀ e ∈ b.wires, ∃ m, b.design.module? e.2.module = some m ∧
    m.wireIndex? e.1 = some e.2.wire

end Construction

theorem Cell.ofCalls_gathers (name kind : String) (calls : List CellCall) :
    (Cell.ofCalls name kind calls).Gathers name kind calls where
  named := (ofCalls_header name kind calls).1
  typed := (ofCalls_header name kind calls).2
  once := ofCalls_params_nodup name kind calls
  last := ofCalls_get? name kind calls
  connected := ofCalls_connections name kind calls

theorem BuildCall.cell?_eq (c : BuildCall) (i : Nat) :
    c.cell? i = (c.added? i).map fun a => .ofCalls a.1 a.2.1 a.2.2 := by
  cases c with
  | cell j name kind calls =>
    by_cases hij : j = i <;> simp [cell?, added?, hij]
  | _ => rfl

theorem BuildCall.mem_joins {c : BuildCall} {i : Nat} {cell : Cell} (h : c.cell? i = some cell)
    {k : Connection} (hk : k ∈ cell.connections) : ⟨i, k.wire⟩ ∈ c.joins := by
  cases c with
  | cell j name kind calls =>
    obtain ⟨rfl, hcell⟩ := Option.ite_none_right_eq_some.mp h
    obtain rfl := Option.some.inj hcell
    rw [Cell.ofCalls_connections] at hk
    obtain ⟨call, hcall, hconnection⟩ := List.mem_filterMap.mp hk
    refine List.mem_map_of_mem (List.mem_filterMap.mpr ⟨call, hcall, ?_⟩)
    cases call with
    | param name value => cases hconnection
    | connect port direction wire =>
      obtain rfl := Option.some.inj hconnection
      rfl
  | _ => cases h

namespace Construction.Accords
variable {past : List BuildCall} {b : Construction}

theorem numbers (h : Accords past b) : b.Numbers where
  modules _ he := h.moduleIndex? he
  wires e he := by
    obtain ⟨m, -, hm, -⟩ := h.wires e he
    exact ⟨m, hm, h.wireIndex? he hm⟩

theorem wellFormed_module (h : Accords past b) {i : Nat} {m : Module}
    (hm : b.design.module? i = some m) : m.WellFormed i past := by
  have hmem := List.mem_of_getElem? hm
  refine ⟨h.built.indexed.ids i m hm, h.built.distinct.wires m hmem,
    fun name k => h.built.indexed.wireIndex?_eq_some_iff hmem, fun x hx => ?_, ?_⟩
  · have hfound : (m.wires.find? (·.name == x.name)).isSome :=
      List.find?_isSome.mpr ⟨x, hx, beq_self_eq_true x.name⟩
    obtain ⟨y, hy⟩ := Option.isSome_iff_exists.mp hfound
    have hname := List.find?_some hy
    obtain rfl : y = x := List.inj_on_of_nodup_map (h.built.distinct.wires m hmem)
      (List.mem_of_find?_eq_some hy) hx (eq_of_beq hname)
    exact Wire.sums_of_absorb ((h.supplied i m hm y.name).symm.trans hy)
  · have hcells : m.cells = (past.filterMap (·.added? i)).map fun a =>
        Cell.ofCalls a.1 a.2.1 a.2.2 := by
      rw [h.cells i m hm, List.map_filterMap]
      exact List.filterMap_congr fun c _ => c.cell?_eq i
    rw [hcells, List.forall₂_map_left_iff]
    exact List.forall₂_same.mpr fun a _ => Cell.ofCalls_gathers a.1 a.2.1 a.2.2

theorem wellFormed (h : Accords past b) : b.design.WellFormed past where
  names := h.built.distinct.modules
  found name m := h.built.indexed.moduleNamed?_eq_some_iff
  modules i m hm := h.wellFormed_module hm
  top i hi := by
    obtain ⟨m, hm⟩ := h.top i hi
    rw [hm, Option.isSome_some]

theorem wire? (h : Accords past b) {e : String × WireKey} (he : e ∈ b.wires) :
    (b.design.wire? e.2).isSome := by
  obtain ⟨m, x, hm, hx, -⟩ := h.wires e he
  rw [Design.wire?, hm]
  exact Option.isSome_iff_exists.mpr ⟨x, hx⟩

theorem linked (h : Accords past b) (howned : ∀ c ∈ past, b.Owns c) : b.design.Linked := by
  have hconnections : ∀ i m, b.design.module? i = some m → ∀ c ∈ m.cells, ∀ k ∈ c.connections,
      (b.design.wire? ⟨i, k.wire⟩).isSome := fun i m hm c hc k hk => by
    rw [h.cells i m hm] at hc
    obtain ⟨call, hcall, hcell⟩ := List.mem_filterMap.mp hc
    obtain ⟨e, he, hjoined⟩ := howned call hcall _ (BuildCall.mem_joins hcell hk)
    exact hjoined ▸ h.wire? he
  refine ⟨hconnections, fun w r hr => ?_⟩
  obtain ⟨m, hm, c, hc, k, hk, -, hwire, -⟩ := Design.mem_fanout.mp hr
  have hmem := List.mem_of_getElem? hc
  have hread := hconnections w.module m hm c hmem k hk
  rw [hwire] at hread
  exact ⟨hread, m, hm, c, hc, hconnections w.module m hm c hmem⟩

end Construction.Accords

namespace Construction

theorem owns_all {cs : List BuildCall} (h : Throughout Owns {} cs) :
    ∀ c ∈ cs, (calls {} cs).Owns c := by
  refine Throughout.induction (P := fun past b => ∀ c ∈ past, b.Owns c)
    (fun {past b c} hpast hc => ?_) (fun c (hc : c ∈ []) => by cases hc) h
  have hkept : ∀ c', b.Owns c' → (b.call c).Owns c' := fun c' hc' v hv =>
    (hc' v hv).imp fun e he => ⟨b.wires_subset_call c he.1, he.2⟩
  exact List.forall_mem_append.mpr
    ⟨fun c' hc' => hkept c' (hpast c' hc'), List.forall_mem_singleton.mpr (hkept c hc)⟩

/-- Names and numbers of whatever is put together with numbers that were returned; the wires of
cells where these were returned for the module of the cell; and documents as a case of both. -/
theorem wellFormed_linked :
    (∀ cs, Throughout Knows {} cs →
      (calls {} cs).Numbers ∧ (calls {} cs).design.WellFormed cs) ∧
    (∀ cs, Throughout Knows {} cs → Throughout Owns {} cs → (calls {} cs).design.Linked) ∧
    ∀ text d, Design.read text = .ok d → ∃ cs,
      Throughout Knows {} cs ∧ Throughout Owns {} cs ∧ (calls {} cs).design = d := by
  refine ⟨fun cs h => ⟨(Accords.calls h).numbers, (Accords.calls h).wellFormed⟩,
    fun cs h howns => (Accords.calls h).linked (owns_all howns), fun text d h => ?_⟩
  unfold Design.read at h
  cases hdoc : NetlistDocument.read? text with
  | none =>
    rw [hdoc] at h
    cases h
  | some doc =>
    rw [hdoc] at h
    obtain ⟨top, plan, -, hd, hadmits, -⟩ := NetlistDocument.toDesign_calls
      (NetlistDocument.read?_inNameOrder hdoc).modules.nodup h
    exact ⟨_, (Throughout.and_iff.mp hadmits).1, (Throughout.and_iff.mp hadmits).2, hd⟩

def buffered : List BuildCall := [
  .module "top", .top 0, .module "top",
  .wire 0 "clk" 1 none, .wire 0 "out" 1 (some .output), .wire 0 "clk" 4 (some .input),
  .cell 0 "u" "BUFR" [.param "DIVIDE" (.int 2), .connect "I" .input 0, .connect "O" .output 1,
    .param "DIVIDE" (.int 4)]]

def bareText : String := "\x7b\"modules\":\x7b\"top\":\x7b\x7d\x7d\x7d"

theorem wellFormed_linked_buffered :
    Throughout Knows {} buffered ∧ Throughout Owns {} buffered ∧
      (calls {} buffered).Numbers ∧ (calls {} buffered).design.WellFormed buffered ∧
      (calls {} buffered).design.Linked ∧
      Design.read bareText = .ok (Design.declareModule {} "top").2 ∧
      ∃ cs, Throughout Knows {} cs ∧ Throughout Owns {} cs ∧
        (calls {} cs).design = (Design.declareModule {} "top").2 := by
  have hknows : Throughout Knows {} buffered := by decide
  have howns : Throughout Owns {} buffered := by decide
  have hread : Design.read bareText = .ok (Design.declareModule {} "top").2 := by cbv
  obtain ⟨hnumbers, hwellFormed⟩ := wellFormed_linked.1 buffered hknows
  exact ⟨hknows, howns, hnumbers, hwellFormed, wellFormed_linked.2.1 buffered hknows howns, hread,
    wellFormed_linked.2.2 bareText _ hread⟩

/-- A wire of another module is connected by its number alone. -/
def foreign : List BuildCall := [
  .module "top", .top 0, .module "core", .wire 0 "clk" 1 (some .input), .wire 1 "a" 1 none,
  .wire 1 "b" 1 none, .cell 0 "u" "BUFG" [.connect "I" .input 0, .connect "O" .output 1]]

theorem foreign_wire_missing : Throughout Knows {} foreign ∧
    ∃ m c, (calls {} foreign).design.module? 0 = some m ∧ c ∈ m.cells ∧
      ∃ k ∈ c.connections, (calls {} foreign).design.wire? ⟨0, k.wire⟩ = none := by
  refine ⟨by decide, ⟨0, "top", [⟨"clk", 1, some .input⟩],
    [⟨"u", "BUFG", [], [⟨"I", .input, 0⟩, ⟨"O", .output, 1⟩]⟩], .insert {} "clk" 0⟩, _, by rfl,
    List.mem_singleton.mpr rfl, ⟨"O", .output, 1⟩, by decide, by decide⟩

end Construction

end ClockTree
