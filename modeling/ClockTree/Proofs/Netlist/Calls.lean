import ClockTree.Proofs.Netlist.Paths

/-!
# Designs that are put together call by call

Modules, wires and cells are added by calls that name modules and wires by the numbers that earlier
calls returned. A number stays valid as the design grows, so what a finished design holds can be
told from the calls: which wires and cells its modules have, how wide a wire is, and how the
parameters of a cell are set.
-/
namespace ClockTree

inductive CellCall where
  | param (name : String) (value : Parameter)
  | connect (port : String) (direction : Direction) (wire : Nat)
deriving DecidableEq

namespace CellCall

def wire? : CellCall → Option Nat
  | .param _ _ => none
  | .connect _ _ wire => some wire

def setting? (name : String) : CellCall → Option Parameter
  | .param n value => if n = name then some value else none
  | .connect _ _ _ => none

def connection? : CellCall → Option Connection
  | .param _ _ => none
  | .connect port direction wire => some ⟨port, direction, wire⟩

end CellCall

namespace Cell

def apply (c : Cell) : CellCall → Cell
  | .param name value => c.setParam name value
  | .connect port direction wire => c.attach port direction wire

def ofCalls (name kind : String) (calls : List CellCall) : Cell :=
  calls.foldl apply ⟨name, kind, [], []⟩

end Cell

inductive BuildCall where
  | module (name : String)
  | top (module : Nat)
  | wire (module : Nat) (name : String) (width : Nat) (port : Option Direction)
  | cell (module : Nat) (name kind : String) (calls : List CellCall)
deriving DecidableEq

namespace BuildCall

def module? : BuildCall → Option Nat
  | .module _ => none
  | .top i | .wire i _ _ _ | .cell i _ _ _ => some i

/-- The wires that a call connects. They are meant as wires of the module that gets the cell. -/
def joins : BuildCall → List WireKey
  | .cell i _ _ calls => (calls.filterMap CellCall.wire?).map (⟨i, ·⟩)
  | _ => []

def supply? (i : Nat) (name : String) : BuildCall → Option (Nat × Option Direction)
  | .wire j n width port => if j = i ∧ n = name then some (width, port) else none
  | _ => none

def added? (i : Nat) : BuildCall → Option (String × String × List CellCall)
  | .cell j name kind calls => if j = i then some (name, kind, calls) else none
  | _ => none

def cell? (i : Nat) : BuildCall → Option Cell
  | .cell j name kind calls => if j = i then some (.ofCalls name kind calls) else none
  | _ => none

end BuildCall

/-- A design and the numbers that the calls so far returned, with the names they were returned
for. -/
structure Construction where
  design : Design := {}
  modules : List (String × Nat) := []
  wires : List (String × WireKey) := []

namespace Construction

def call (b : Construction) : BuildCall → Construction
  | .module name =>
    let (i, design) := b.design.declareModule name
    { b with design, modules := b.modules ++ [(name, i)] }
  | .top i => { b with design := b.design.markTop i }
  | .wire i name width port =>
    let (k, design) := b.design.declareWire i name width port
    { b with design, wires := b.wires ++ [(name, ⟨i, k⟩)] }
  | .cell i name kind calls =>
    { b with design := b.design.placeCell i (.ofCalls name kind calls) }

def calls (b : Construction) (cs : List BuildCall) : Construction := cs.foldl call b

/-- The numbers in a call were returned by earlier calls. -/
def Knows (b : Construction) (c : BuildCall) : Prop :=
  (∀ i ∈ c.module?, ∃ e ∈ b.modules, e.2 = i) ∧ ∀ v ∈ c.joins, ∃ e ∈ b.wires, e.2.wire = v.wire

/-- The wires that a call connects were returned for the module that gets the cell. -/
def Owns (b : Construction) (c : BuildCall) : Prop := ∀ v ∈ c.joins, ∃ e ∈ b.wires, e.2 = v

def Throughout (p : Construction → BuildCall → Prop) : Construction → List BuildCall → Prop
  | _, [] => True
  | b, c :: cs => p b c ∧ Throughout p (b.call c) cs

instance (b : Construction) (c : BuildCall) : Decidable (b.Knows c) :=
  inferInstanceAs (Decidable (_ ∧ _))

instance (b : Construction) (c : BuildCall) : Decidable (b.Owns c) :=
  inferInstanceAs (Decidable (∀ v ∈ c.joins, _))

instance decidableThroughout (p : Construction → BuildCall → Prop) [∀ b c, Decidable (p b c)] :
    ∀ b cs, Decidable (Throughout p b cs)
  | _, [] => .isTrue trivial
  | b, c :: cs =>
    have := decidableThroughout p (b.call c) cs
    inferInstanceAs (Decidable (_ ∧ _))

section
variable {p q : Construction → BuildCall → Prop} {b : Construction} {cs ds : List BuildCall}

theorem calls_append : b.calls (cs ++ ds) = (b.calls cs).calls ds := List.foldl_append

theorem throughout_append :
    Throughout p b (cs ++ ds) ↔ Throughout p b cs ∧ Throughout p (b.calls cs) ds := by
  induction cs generalizing b with
  | nil => simp [Throughout, calls]
  | cons c cs ih =>
    simp only [List.cons_append, Throughout, ih, and_assoc]
    rfl

theorem Throughout.and_iff : Throughout (fun b c => p b c ∧ q b c) b cs ↔
    Throughout p b cs ∧ Throughout q b cs := by
  induction cs generalizing b with
  | nil => simp [Throughout]
  | cons c cs ih =>
    simp only [Throughout, ih]
    exact and_and_and_comm

/-- Calls that are all in order at the start stay so when calls cannot put one another out of
order. -/
theorem Throughout.of_forall (hstep : ∀ {b c c'}, p b c' → p (b.call c) c')
    (h : ∀ c ∈ cs, p b c) : Throughout p b cs := by
  induction cs generalizing b with
  | nil => trivial
  | cons c cs ih =>
    obtain ⟨hfirst, hrest⟩ := List.forall_mem_cons.mp h
    exact ⟨hfirst, ih fun c' hc' => hstep (hrest c' hc')⟩

theorem Throughout.induction {P : List BuildCall → Construction → Prop}
    (hstep : ∀ {past b c}, P past b → p b c → P (past ++ [c]) (b.call c))
    {past : List BuildCall} (h : P past b) (hp : Throughout p b cs) :
    P (past ++ cs) (b.calls cs) := by
  induction cs generalizing b past with
  | nil => rwa [List.append_nil]
  | cons c cs ih =>
    rw [List.append_cons]
    exact ih (hstep h hp.1) hp.2

end
end Construction

namespace Wire

def absorb (name : String) (x : Option Wire) (s : Nat × Option Direction) : Option Wire :=
  match x with
  | none => some ⟨name, s.1, s.2⟩
  | some x => some (Design.widen s.1 s.2 x)

structure Sums (x : Wire) (ss : List (Nat × Option Direction)) : Prop where
  attained : x.width ∈ ss.map (·.1)
  largest : ∀ s ∈ ss, s.1 ≤ x.width
  direction : x.port = (ss.filterMap (·.2)).getLast?

theorem foldl_absorb_eq_none {name : String} {ss : List (Nat × Option Direction)}
    (h : ss.foldl (absorb name) none = none) : ss = [] := by
  cases ss using List.reverseRecOn with
  | nil => rfl
  | append_singleton ss s =>
    rw [List.foldl_concat] at h
    cases hx : ss.foldl (absorb name) none <;> simp [hx, absorb] at h

theorem sums_of_absorb {name : String} {ss : List (Nat × Option Direction)} {x : Wire}
    (h : ss.foldl (absorb name) none = some x) : x.Sums ss := by
  induction ss using List.reverseRecOn generalizing x with
  | nil => cases h
  | append_singleton ss s ih =>
    rw [List.foldl_concat] at h
    cases hx : ss.foldl (absorb name) none with
    | none =>
      obtain rfl := foldl_absorb_eq_none hx
      cases h
      refine ⟨by simp, by simp, ?_⟩
      cases hport : s.2 <;> simp [hport]
    | some y =>
      rw [hx] at h
      cases h
      obtain ⟨hattained, hlargest, hdirection⟩ := ih hx
      refine ⟨?_, fun t ht => ?_, ?_⟩
      · simp only [Design.widen, List.map_append, List.mem_append, List.map_cons, List.map_nil,
          List.mem_singleton]
        obtain hle | hle := Nat.le_total y.width s.1
        · exact Or.inr (Nat.max_eq_right hle)
        · exact Or.inl ((Nat.max_eq_left hle).symm ▸ hattained)
      · obtain ht | ht := List.mem_append.mp ht
        · exact Nat.le_trans (hlargest t ht) (Nat.le_max_left _ _)
        · exact List.mem_singleton.mp ht ▸ Nat.le_max_right _ _
      · cases hport : s.2 <;> simp [Design.widen, hport, hdirection]

end Wire

theorem find?_modify {name : String} {l : List Wire} {k : Nat}
    (h : l.findIdx? (·.name == name) = some k) {f : Wire → Wire} (hf : ∀ x, (f x).name = x.name)
    (n : String) : (l.modify k f).find? (·.name == n) =
      if n = name then (l.find? (·.name == n)).map f else l.find? (·.name == n) := by
  induction l generalizing k with
  | nil => cases h
  | cons x l ih =>
    rw [List.findIdx?_cons] at h
    by_cases hx : x.name = name
    · simp only [hx, beq_self_eq_true, if_true] at h
      cases h
      by_cases hn : n = name
      · simp [hf, hx, hn]
      · simp [hf, hx, hn, Ne.symm hn]
    · simp only [beq_iff_eq, hx, if_false] at h
      obtain ⟨j, hj, rfl⟩ := Option.map_eq_some_iff.mp h
      rw [List.modify_succ_cons, List.find?_cons, List.find?_cons, ih hj]
      by_cases hxn : x.name = n
      · have hn : n ≠ name := hxn ▸ hx
        simp [hxn, hn]
      · simp [beq_eq_false_iff_ne.mpr hxn]

namespace Design
variable {d : Design} {i : Nat} {m : Module}

theorem module?_modifyModule (d : Design) (i j : Nat) (f : Module → Module) :
    (d.modifyModule i f).module? j = if i = j then (d.module? j).map f else d.module? j := by
  unfold modifyModule module?
  dsimp only
  rw [List.getElem?_modify]
  split <;> simp

end Design

/-- What a call for a name makes of the wires of a module: the wire at the returned number has the
name, and no other is touched. -/
structure Module.Declares (m : Module) (name : String) (s : Nat × Option Direction) (k : Nat)
    (m' : Module) : Prop where
  named : m'.name = m.name
  cells : m'.cells = m.cells
  returned : ∃ x, m'.wires[k]? = some x ∧ x.name = name
  kept : ∀ (j : Nat) (x : Wire), m.wires[j]? = some x →
    ∃ x' : Wire, m'.wires[j]? = some x' ∧ x'.name = x.name
  find : ∀ n, m'.wires.find? (·.name == n) =
    if n = name then Wire.absorb name (m.wires.find? (·.name == n)) s
    else m.wires.find? (·.name == n)

section
variable {m : Module} {name : String}

theorem Module.declares_widened (hindex : Inverts m.wireIndex (m.wires.map (·.name))) {k : Nat}
    (hk : m.wireIndex? name = some k) (width : Nat) (port : Option Direction) :
    m.Declares name (width, port) k
      { m with wires := m.wires.modify k (Design.widen width port) } := by
  rw [wireIndex?, hindex.getElem?_eq_findIdx?] at hk
  obtain ⟨hlt, hname, -⟩ := List.findIdx?_eq_some_iff_getElem.mp hk
  refine ⟨rfl, rfl, ?_, fun j x hx => ?_, fun n => ?_⟩
  · exact ⟨Design.widen width port m.wires[k], by simp [List.getElem?_eq_getElem hlt],
      beq_iff_eq.mp hname⟩
  · dsimp only
    rw [List.getElem?_modify, hx]
    split
    · exact ⟨_, rfl, rfl⟩
    · exact ⟨_, rfl, rfl⟩
  · dsimp only
    rw [find?_modify hk (Design.widen_name width port)]
    split
    · rename_i hn
      subst hn
      cases hx : m.wires.find? (·.name == n) with
      | none => exact absurd hname (List.find?_eq_none.mp hx _ (List.getElem_mem hlt))
      | some x => rfl
    · rfl

theorem Module.declares_appended (hindex : Inverts m.wireIndex (m.wires.map (·.name)))
    (hk : m.wireIndex? name = none) (width : Nat) (port : Option Direction) :
    m.Declares name (width, port) m.wires.length { m with
      wires := m.wires ++ [⟨name, width, port⟩]
      wireIndex := m.wireIndex.insert name m.wires.length } := by
  rw [wireIndex?, hindex.getElem?_eq_findIdx?] at hk
  have hnone := List.findIdx?_eq_none_iff.mp hk
  refine ⟨rfl, rfl, ⟨⟨name, width, port⟩, by simp, rfl⟩, fun j x hx => ?_, fun n => ?_⟩
  · exact ⟨x, by rw [List.getElem?_append_left (List.getElem?_eq_some_iff.mp hx).1, hx], rfl⟩
  · dsimp only
    rw [List.find?_append, List.find?_singleton]
    by_cases hn : n = name
    · subst hn
      have habsent : m.wires.find? (·.name == n) = none :=
        List.find?_eq_none.mpr fun x hx => by simp [hnone x hx]
      simp [habsent, Wire.absorb]
    · simp [hn, Ne.symm hn]

end

theorem Design.Indexed.declareWire_declares {d : Design} (h : d.Indexed) {i : Nat} {m : Module}
    (hm : d.module? i = some m) (name : String) (width : Nat) (port : Option Direction) :
    ∃ m', m.Declares name (width, port) (d.declareWire i name width port).1 m' ∧
      (d.declareWire i name width port).2.top = d.top ∧
      ∀ j, (d.declareWire i name width port).2.module? j =
        if i = j then some m' else d.module? j := by
  unfold Design.declareWire
  rw [hm]
  dsimp only
  have hmodule : ∀ f : Module → Module, ∀ j, (d.modifyModule i f).module? j =
      if i = j then some (f m) else d.module? j := fun f j => by
    rw [module?_modifyModule]
    split
    · rename_i hij
      rw [← hij, hm, Option.map_some]
    · rfl
  have hindex := h.wires m (List.mem_of_getElem? hm)
  cases hk : m.wireIndex? name with
  | some k => exact ⟨_, Module.declares_widened hindex hk width port, rfl, hmodule _⟩
  | none => exact ⟨_, Module.declares_appended hindex hk width port, rfl, hmodule _⟩

end ClockTree
