import ClockTree.Proofs.Netlist.Calls

/-!
# Designs are well formed

What the calls so far made of a design is one invariant: the numbers that were returned lead to what
they were returned for, a wire is what its calls supplied together, and the cells of a module are
those that were added to it. It is kept by every call that uses numbers returned before.
-/
namespace ClockTree

theorem Params.lookup_set (ps : Params) (name p : String) (v : Parameter) :
    (ps.set name v).lookup p = if p = name then some v else ps.lookup p := by
  induction ps with
  | nil =>
    by_cases hp : p = name <;> simp [set, hp]
  | cons e ps ih =>
    obtain ⟨n, old⟩ := e
    unfold set
    by_cases hn : n = name
    · rw [if_pos hn]
      by_cases hp : p = n
      · simp [hp, hn]
      · simp [hn ▸ hp, List.lookup_cons, beq_eq_false_iff_ne.mpr hp]
    · rw [if_neg hn, List.lookup_cons, List.lookup_cons, ih]
      by_cases hp : p = n
      · simp [hp, hn]
      · simp [beq_eq_false_iff_ne.mpr hp]

theorem Params.names_set (ps : Params) (name : String) (v : Parameter) :
    (ps.set name v).map (·.1) =
      if name ∈ ps.map (·.1) then ps.map (·.1) else ps.map (·.1) ++ [name] := by
  induction ps with
  | nil => rfl
  | cons e ps ih =>
    obtain ⟨n, old⟩ := e
    unfold set
    by_cases hn : n = name
    · simp [hn]
    · rw [if_neg hn, List.map_cons, ih]
      by_cases hmem : name ∈ ps.map (·.1) <;> simp [hmem, Ne.symm hn]

namespace Cell

theorem ofCalls_concat (name kind : String) (calls : List CellCall) (call : CellCall) :
    ofCalls name kind (calls ++ [call]) = (ofCalls name kind calls).apply call := by
  rw [ofCalls, List.foldl_concat]
  rfl

theorem ofCalls_header (name kind : String) (calls : List CellCall) :
    (ofCalls name kind calls).name = name ∧ (ofCalls name kind calls).kind = kind := by
  induction calls using List.reverseRecOn with
  | nil => exact ⟨rfl, rfl⟩
  | append_singleton calls call ih =>
    rw [ofCalls_concat]
    cases call <;> exact ih

theorem ofCalls_connections (name kind : String) (calls : List CellCall) :
    (ofCalls name kind calls).connections = calls.filterMap CellCall.connection? := by
  induction calls using List.reverseRecOn with
  | nil => rfl
  | append_singleton calls call ih =>
    rw [ofCalls_concat, List.filterMap_append, ← ih]
    cases call with
    | param name value => simp [apply, setParam, CellCall.connection?]
    | connect port direction wire => simp [apply, attach, CellCall.connection?]

theorem ofCalls_params_nodup (name kind : String) (calls : List CellCall) :
    ((ofCalls name kind calls).params.map (·.1)).Nodup := by
  induction calls using List.reverseRecOn with
  | nil => exact List.nodup_nil
  | append_singleton calls call ih =>
    rw [ofCalls_concat]
    cases call with
    | connect port direction wire => exact ih
    | param name value =>
      simp only [apply, setParam, Params.names_set]
      split
      · exact ih
      · rename_i hnew
        exact List.concat_eq_append ▸ ih.concat hnew

theorem ofCalls_get? (name kind : String) (calls : List CellCall) (p : String) :
    (ofCalls name kind calls).params.get? p = (calls.filterMap (·.setting? p)).getLast? := by
  induction calls using List.reverseRecOn with
  | nil => rfl
  | append_singleton calls call ih =>
    rw [ofCalls_concat, List.filterMap_append]
    cases call with
    | connect port direction wire =>
      have hnone : [CellCall.connect port direction wire].filterMap (·.setting? p) = [] := rfl
      rw [hnone, List.append_nil, ← ih]
      rfl
    | param n value =>
      change List.lookup p (Params.set _ n value) = _
      rw [Params.lookup_set]
      by_cases hp : p = n
      · have hsome : [CellCall.param n value].filterMap (·.setting? p) = [value] := by
          simp [CellCall.setting?, hp]
        rw [if_pos hp, hsome, List.getLast?_concat]
      · have hnone : [CellCall.param n value].filterMap (·.setting? p) = [] := by
          simp [CellCall.setting?, Ne.symm hp]
        rw [if_neg hp, hnone, List.append_nil, ← ih]
        rfl

end Cell

namespace Construction

structure Accords (past : List BuildCall) (b : Construction) : Prop where
  built : b.design.Built
  modules : ∀ e ∈ b.modules, ∃ m, b.design.module? e.2 = some m ∧ m.name = e.1
  wires : ∀ e ∈ b.wires, ∃ m x, b.design.module? e.2.module = some m ∧
    m.wires[e.2.wire]? = some x ∧ x.name = e.1
  top : ∀ i ∈ b.design.top, ∃ m, b.design.module? i = some m
  known : ∀ c ∈ past, ∀ i ∈ c.module?, ∃ m, b.design.module? i = some m
  cells : ∀ i m, b.design.module? i = some m → m.cells = past.filterMap (·.cell? i)
  supplied : ∀ i m, b.design.module? i = some m → ∀ name, m.wires.find? (·.name == name) =
    (past.filterMap (·.supply? i name)).foldl (Wire.absorb name) none

def Keeps (d d' : Design) : Prop := ∀ i m, d.module? i = some m →
  ∃ m', d'.module? i = some m' ∧ m'.name = m.name ∧
    ∀ (k : Nat) (x : Wire), m.wires[k]? = some x →
      ∃ x' : Wire, m'.wires[k]? = some x' ∧ x'.name = x.name

variable {past : List BuildCall} {b : Construction} {c : BuildCall}

theorem Keeps.refl (d : Design) : Keeps d d :=
  fun _ m hm => ⟨m, hm, rfl, fun _ x hx => ⟨x, hx, rfl⟩⟩

theorem Keeps.declareModule (d : Design) (name : String) :
    Keeps d (d.declareModule name).2 := by
  unfold Design.declareModule
  split
  · exact .refl d
  · intro i m hm
    refine ⟨m, ?_, rfl, fun _ x hx => ⟨x, hx, rfl⟩⟩
    exact (List.getElem?_append_left (List.getElem?_eq_some_iff.mp hm).1).trans hm

theorem Keeps.declareWire {d : Design} (h : d.Indexed) (i : Nat) (name : String) (width : Nat)
    (port : Option Direction) : Keeps d (d.declareWire i name width port).2 := by
  cases hi : d.module? i with
  | none =>
    simp only [Design.declareWire, hi]
    exact .refl d
  | some m =>
    obtain ⟨m', hdeclares, -, hmodule⟩ := h.declareWire_declares hi name width port
    intro j mj hj
    rw [hmodule]
    split
    · rename_i hij
      obtain rfl : m = mj := Option.some.inj (hi.symm.trans (hij ▸ hj))
      exact ⟨m', rfl, hdeclares.named, hdeclares.kept⟩
    · exact Keeps.refl d j mj hj

theorem Keeps.placeCell (d : Design) (i : Nat) (cell : Cell) : Keeps d (d.placeCell i cell) := by
  intro j m hm
  unfold Design.placeCell
  rw [Design.module?_modifyModule, hm]
  split
  · exact ⟨_, rfl, rfl, fun _ x hx => ⟨x, hx, rfl⟩⟩
  · exact ⟨m, rfl, rfl, fun _ x hx => ⟨x, hx, rfl⟩⟩

theorem keeps_call (h : b.design.Indexed) (c : BuildCall) : Keeps b.design (b.call c).design := by
  cases c with
  | module name => exact .declareModule _ name
  | top i => exact .refl _
  | wire i name width port => exact .declareWire h i name width port
  | cell i name kind calls => exact .placeCell _ i _

theorem Keeps.module {d d' : Design} (h : Keeps d d') {i : Nat}
    (hi : ∃ m, d.module? i = some m) : ∃ m, d'.module? i = some m := by
  obtain ⟨m, hm⟩ := hi
  obtain ⟨m', hm', -⟩ := h i m hm
  exact ⟨m', hm'⟩

theorem module?_declareModule {d : Design} {name : String} {i : Nat} {m : Module}
    (hm : (d.declareModule name).2.module? i = some m) :
    d.module? i = some m ∨ d.module? i = none ∧ m = { id := d.modules.length, name } := by
  unfold Design.declareModule at hm
  split at hm
  · exact Or.inl hm
  · cases hi : d.module? i with
    | some m' =>
      have hlt := (List.getElem?_eq_some_iff.mp hi).1
      exact Or.inl (hi.symm.trans ((List.getElem?_append_left hlt).symm.trans hm))
    | none =>
      have hle := List.getElem?_eq_none_iff.mp hi
      have hnew := (List.getElem?_append_right hle).symm.trans hm
      exact Or.inr ⟨rfl, List.mem_singleton.mp (List.mem_of_getElem? hnew)⟩

structure Holds (past : List BuildCall) (i : Nat) (m : Module) : Prop where
  cells : m.cells = past.filterMap (·.cell? i)
  supplied : ∀ name, m.wires.find? (·.name == name) =
    (past.filterMap (·.supply? i name)).foldl (Wire.absorb name) none

theorem Holds.idle {i : Nat} {m : Module} (h : Holds past i m) (hcell : c.cell? i = none)
    (hsupply : ∀ name, c.supply? i name = none) : Holds (past ++ [c]) i m where
  cells := by
    rw [List.filterMap_append, ← h.cells, List.filterMap_cons_none hcell, List.filterMap_nil,
      List.append_nil]
  supplied name := by
    rw [List.filterMap_append, List.filterMap_cons_none (hsupply name), List.filterMap_nil,
      List.append_nil, h.supplied]

namespace Accords

theorem start : Accords [] {} where
  built := .empty
  modules e he := by cases he
  wires e he := by cases he
  top i hi := by cases hi
  known c hc := by cases hc
  cells i m hm := by cases hm
  supplied i m hm := by cases hm

theorem exists_module (h : Accords past b) (hc : b.Knows c) {i : Nat} (hi : i ∈ c.module?) :
    ∃ m, b.design.module? i = some m := by
  obtain ⟨e, he, rfl⟩ := hc.1 i hi
  obtain ⟨m, hm, -⟩ := h.modules e he
  exact ⟨m, hm⟩

theorem no_calls (h : Accords past b) {i : Nat} (hi : b.design.module? i = none) :
    past.filterMap (·.cell? i) = [] ∧ ∀ name, past.filterMap (·.supply? i name) = [] := by
  have hne : ∀ c ∈ past, i ∉ c.module? := fun c hc hmem => by
    obtain ⟨m, hm⟩ := h.known c hc i hmem
    cases hi.symm.trans hm
  refine ⟨List.filterMap_eq_nil_iff.mpr fun c hc => ?_,
    fun name => List.filterMap_eq_nil_iff.mpr fun c hc => ?_⟩
  all_goals
    have hi := hne c hc
    cases c <;> simp_all [BuildCall.module?, BuildCall.cell?, BuildCall.supply?]

theorem built_call (h : Accords past b) (c : BuildCall) : (b.call c).design.Built := by
  cases c with
  | module name => exact .declareModule h.built name
  | top i => exact .markTop h.built i
  | wire i name width port => exact .declareWire h.built i name width port
  | cell i name kind calls => exact .placeCell h.built i _

theorem modules_call (h : Accords past b) (c : BuildCall) : ∀ e ∈ (b.call c).modules,
    ∃ m, (b.call c).design.module? e.2 = some m ∧ m.name = e.1 := by
  have hold : ∀ e ∈ b.modules, ∃ m, (b.call c).design.module? e.2 = some m ∧ m.name = e.1 :=
    fun e he => by
      obtain ⟨m, hm, hname⟩ := h.modules e he
      obtain ⟨m', hm', hname', -⟩ := keeps_call h.built.indexed c e.2 m hm
      exact ⟨m', hm', hname'.trans hname⟩
  cases c with
  | module name =>
    refine List.forall_mem_append.mpr ⟨hold, List.forall_mem_singleton.mpr ?_⟩
    have hnew : ∃ m, (b.design.declareModule name).2.module? (b.design.declareModule name).1 =
        some m ∧ m.name = name := by
      unfold Design.declareModule
      split
      · rename_i i hi
        exact h.built.indexed.moduleIndex?_eq_some_iff.mp hi
      · exact ⟨_, List.getElem?_concat_length, rfl⟩
    exact hnew
  | top i => exact hold
  | wire i name width port => exact hold
  | cell i name kind calls => exact hold

theorem wires_call (h : Accords past b) (hc : b.Knows c) : ∀ e ∈ (b.call c).wires,
    ∃ m x, (b.call c).design.module? e.2.module = some m ∧ m.wires[e.2.wire]? = some x ∧
      x.name = e.1 := by
  have hold : ∀ e ∈ b.wires, ∃ m x, (b.call c).design.module? e.2.module = some m ∧
      m.wires[e.2.wire]? = some x ∧ x.name = e.1 := fun e he => by
    obtain ⟨m, x, hm, hx, hname⟩ := h.wires e he
    obtain ⟨m', hm', -, hwires⟩ := keeps_call h.built.indexed c _ m hm
    obtain ⟨x', hx', hname'⟩ := hwires _ x hx
    exact ⟨m', x', hm', hx', hname'.trans hname⟩
  cases c with
  | wire i name width port =>
    refine List.forall_mem_append.mpr ⟨hold, List.forall_mem_singleton.mpr ?_⟩
    obtain ⟨m, hm⟩ := h.exists_module hc (i := i) rfl
    obtain ⟨m', hdeclares, -, hmodule⟩ := h.built.indexed.declareWire_declares hm name width port
    obtain ⟨x, hx, hname⟩ := hdeclares.returned
    exact ⟨m', x, (hmodule i).trans (if_pos rfl), hx, hname⟩
  | module name => exact hold
  | top i => exact hold
  | cell i name kind calls => exact hold

theorem top_call (h : Accords past b) (hc : b.Knows c) : ∀ i ∈ (b.call c).design.top,
    ∃ m, (b.call c).design.module? i = some m := by
  have hkeeps := keeps_call h.built.indexed c
  cases c with
  | top i =>
    rintro j ⟨⟩
    exact h.exists_module hc (i := i) rfl
  | module name =>
    have htop : (b.design.declareModule name).2.top = b.design.top := by
      unfold Design.declareModule
      split <;> rfl
    exact fun i hi => hkeeps.module (h.top i (htop ▸ hi))
  | wire i name width port =>
    obtain ⟨m, hm⟩ := h.exists_module hc (i := i) rfl
    obtain ⟨m', -, htop, -⟩ := h.built.indexed.declareWire_declares hm name width port
    exact fun i hi => hkeeps.module (h.top i (htop ▸ hi))
  | cell i name kind calls => exact fun j hj => hkeeps.module (h.top j hj)

theorem holds (h : Accords past b) {i : Nat} {m : Module} (hm : b.design.module? i = some m) :
    Holds past i m :=
  ⟨h.cells i m hm, h.supplied i m hm⟩

theorem holds_module (h : Accords past b) {name : String} {i : Nat} {m : Module}
    (hm : (b.design.declareModule name).2.module? i = some m) :
    Holds (past ++ [.module name]) i m := by
  obtain hold | ⟨hnone, rfl⟩ := module?_declareModule hm
  · exact (h.holds hold).idle rfl fun _ => rfl
  · obtain ⟨hcells, hsupplies⟩ := h.no_calls hnone
    refine ⟨?_, fun n => ?_⟩
    · rw [List.filterMap_append, hcells]
      rfl
    · rw [List.filterMap_append, hsupplies]
      rfl

theorem holds_wire (h : Accords past b) {i : Nat} {name : String} {width : Nat}
    {port : Option Direction} (hi : ∃ m, b.design.module? i = some m) {j : Nat} {m' : Module}
    (hm' : (b.design.declareWire i name width port).2.module? j = some m') :
    Holds (past ++ [.wire i name width port]) j m' := by
  obtain ⟨m, hm⟩ := hi
  obtain ⟨m'', hdeclares, -, hmodule⟩ := h.built.indexed.declareWire_declares hm name width port
  have hj := (hmodule j).symm.trans hm'
  split at hj
  · rename_i hij
    subst hij
    obtain rfl := Option.some.inj hj
    refine ⟨?_, fun n => ?_⟩
    · rw [List.filterMap_append, ← h.cells i m hm, hdeclares.cells]
      exact (List.append_nil _).symm
    · rw [hdeclares.find, List.filterMap_append, List.foldl_append, ← h.supplied i m hm]
      split
      · rename_i hn
        simp [BuildCall.supply?, hn]
      · rename_i hn
        simp [BuildCall.supply?, Ne.symm hn]
  · rename_i hij
    exact (h.holds hj).idle rfl fun n => if_neg fun hboth => hij hboth.1

theorem holds_cell (h : Accords past b) {i : Nat} {name kind : String} {calls : List CellCall}
    {j : Nat} {m' : Module}
    (hm' : (b.design.placeCell i (.ofCalls name kind calls)).module? j = some m') :
    Holds (past ++ [.cell i name kind calls]) j m' := by
  unfold Design.placeCell at hm'
  rw [Design.module?_modifyModule] at hm'
  split at hm'
  · rename_i hij
    obtain ⟨m, hm, rfl⟩ := Option.map_eq_some_iff.mp hm'
    refine ⟨?_, fun n => ?_⟩
    · rw [List.filterMap_append, ← h.cells j m hm]
      simp [BuildCall.cell?, hij]
    · rw [List.filterMap_append, List.foldl_append, ← h.supplied j m hm]
      rfl
  · rename_i hij
    exact (h.holds hm').idle (if_neg hij) fun _ => rfl

theorem holds_call (h : Accords past b) (hc : b.Knows c) {i : Nat} {m : Module}
    (hm : (b.call c).design.module? i = some m) : Holds (past ++ [c]) i m := by
  cases c with
  | module name => exact h.holds_module hm
  | top j => exact (h.holds (m := m) hm).idle rfl fun _ => rfl
  | wire j name width port => exact h.holds_wire (h.exists_module hc (i := j) rfl) hm
  | cell j name kind calls => exact h.holds_cell hm

theorem call (h : Accords past b) (hc : b.Knows c) : Accords (past ++ [c]) (b.call c) where
  built := h.built_call c
  modules := h.modules_call c
  wires := h.wires_call hc
  top := h.top_call hc
  known := List.forall_mem_append.mpr
    ⟨fun c' hc' i hi => (keeps_call h.built.indexed c).module (h.known c' hc' i hi),
      List.forall_mem_singleton.mpr fun _ hi =>
        (keeps_call h.built.indexed c).module (h.exists_module hc hi)⟩
  cells _ _ hm := (h.holds_call hc hm).cells
  supplied _ _ hm := (h.holds_call hc hm).supplied

theorem moduleIndex? (h : Accords past b) {e : String × Nat} (he : e ∈ b.modules) :
    b.design.moduleIndex? e.1 = some e.2 :=
  h.built.indexed.moduleIndex?_eq_some_iff.mpr (h.modules e he)

theorem wireIndex? (h : Accords past b) {e : String × WireKey} (he : e ∈ b.wires) {x : Module}
    (hx : b.design.module? e.2.module = some x) : x.wireIndex? e.1 = some e.2.wire := by
  obtain ⟨m, y, hm, hy, hname⟩ := h.wires e he
  obtain rfl : m = x := Option.some.inj (hm.symm.trans hx)
  exact (h.built.indexed.wireIndex?_eq_some_iff (List.mem_of_getElem? hm)).mpr ⟨y, hy, hname⟩

theorem calls {cs : List BuildCall} (h : Throughout Knows {} cs) :
    Accords cs (Construction.calls {} cs) :=
  Throughout.induction (P := Accords) (fun h hc => h.call hc) start h

end Accords

end Construction
end ClockTree
