import ClockTree.Netlist.Document
import Mathlib.Data.List.Nodup

/-!
# Designs that are built

However a design is put together, its modules know their numbers, and its indices are inverse to the
lists of modules and wires, so that no two modules and no two wires of a module have one name.
Designs that are read from a document are put together in this way.
-/
namespace ClockTree

theorem map_modify_of_forall {α β : Type} {f : α → α} {g : α → β} (h : ∀ a, g (f a) = g a)
    (l : List α) (i : Nat) : (l.modify i f).map g = l.map g := by
  refine List.ext_getElem? fun j => ?_
  rw [List.getElem?_map, List.getElem?_map, List.getElem?_modify]
  cases l[j]? with
  | none => rfl
  | some a =>
    by_cases hij : i = j
    · simp [hij, h]
    · simp [hij]

theorem mem_modify {α : Type} {f : α → α} {l : List α} {i : Nat} {b : α}
    (h : b ∈ l.modify i f) : b ∈ l ∨ ∃ a, l[i]? = some a ∧ b = f a := by
  obtain ⟨j, hj⟩ := List.getElem?_of_mem h
  rw [List.getElem?_modify] at hj
  obtain ⟨a, ha, rfl⟩ := Option.map_eq_some_iff.mp hj
  split
  · rename_i hij
    exact Or.inr ⟨a, hij ▸ ha, rfl⟩
  · exact Or.inl (List.mem_of_getElem? ha)

theorem eq_of_nodup_map {α β : Type} {l : List α} {f : α → β} (h : (l.map f).Nodup) {i j : Nat}
    {x y : α} (hx : l[i]? = some x) (hy : l[j]? = some y) (hf : f x = f y) : i = j := by
  obtain ⟨hi, rfl⟩ := List.getElem?_eq_some_iff.mp hx
  obtain ⟨hj, rfl⟩ := List.getElem?_eq_some_iff.mp hy
  refine (List.getElem?_inj (by simpa using hi) h).mp ?_
  rw [List.getElem?_map, List.getElem?_map, List.getElem?_eq_getElem hi, List.getElem?_eq_getElem hj,
    Option.map_some, Option.map_some, hf]

/-- The index leads from a name to the one place of the list where it stands. -/
def Inverts (index : Std.TreeMap String Nat) (names : List String) : Prop :=
  ∀ (name : String) (i : Nat), index[name]? = some i ↔ names[i]? = some name

namespace Inverts
variable {index : Std.TreeMap String Nat} {names : List String} {name : String}

theorem empty : Inverts {} [] := by simp [Inverts]

theorem nodup (h : Inverts index names) : names.Nodup := by
  refine List.nodup_iff_getElem?_ne_getElem?.mpr fun i j hlt hj hsame => ?_
  have hi := List.getElem?_eq_getElem hj
  have hjth := (h names[j] j).mpr hi
  rw [(h names[j] i).mpr (hsame.trans hi)] at hjth
  exact Nat.ne_of_lt hlt (Option.some.inj hjth)

theorem append (h : Inverts index names) (hnew : index[name]? = none) :
    Inverts (index.insert name names.length) (names ++ [name]) := by
  intro n i
  rw [Std.TreeMap.getElem?_insert, List.getElem?_append, List.getElem?_singleton]
  by_cases hn : name = n
  · subst hn
    rw [if_pos Std.compare_self]
    by_cases hlt : i < names.length
    · have hfree : names[i]? ≠ some name := fun hi => by
        rw [(h name i).mpr hi] at hnew
        cases hnew
      rw [if_pos hlt]
      exact iff_of_false (fun hi => Nat.ne_of_lt hlt (Option.some.inj hi).symm) hfree
    · rw [if_neg hlt]
      simp only [Option.some.injEq, Option.ite_none_right_eq_some, and_true]
      omega
  · rw [if_neg fun hsame => hn (Std.compare_eq_iff_eq.mp hsame), h n i]
    by_cases hlt : i < names.length
    · rw [if_pos hlt]
    · rw [if_neg hlt, List.getElem?_eq_none (Nat.le_of_not_lt hlt)]
      simp [hn]

theorem exists_iff {α : Type} {l : List α} {f : α → String} (h : Inverts index (l.map f)) {i : Nat} :
    index[name]? = some i ↔ ∃ a, l[i]? = some a ∧ f a = name := by
  rw [h name i, List.getElem?_map, Option.map_eq_some_iff]

theorem getElem?_eq_findIdx? {α : Type} {l : List α} {f : α → String}
    (h : Inverts index (l.map f)) : index[name]? = l.findIdx? (f · == name) := by
  cases hfound : l.findIdx? (f · == name) with
  | some i =>
    obtain ⟨hlt, hi, -⟩ := List.findIdx?_eq_some_iff_getElem.mp hfound
    exact h.exists_iff.mpr ⟨l[i], List.getElem?_eq_getElem hlt, beq_iff_eq.mp hi⟩
  | none =>
    refine Option.eq_none_iff_forall_ne_some.mpr fun i hi => ?_
    obtain ⟨a, ha, rfl⟩ := h.exists_iff.mp hi
    simpa using List.findIdx?_eq_none_iff.mp hfound a (List.mem_of_getElem? ha)

end Inverts

namespace Design

inductive Built : Design → Prop where
  | empty : Built {}
  | declareModule {d : Design} (h : Built d) (name : String) : Built (d.declareModule name).2
  | markTop {d : Design} (h : Built d) (i : Nat) : Built (d.markTop i)
  | declareWire {d : Design} (h : Built d) (i : Nat) (name : String) (width : Nat)
      (port : Option Direction) : Built (d.declareWire i name width port).2
  | placeCell {d : Design} (h : Built d) (i : Nat) (c : Cell) : Built (d.placeCell i c)

def single (wires : List Wire) (cells : List Cell) : Design :=
  let d := ((({} : Design).declareModule "top").2).markTop 0
  let d := wires.foldl (fun d w => (d.declareWire 0 w.name w.width w.port).2) d
  cells.foldl (fun d c => d.placeCell 0 c) d

theorem widen_name (width : Nat) (port : Option Direction) (w : Wire) :
    (widen width port w).name = w.name := rfl

structure Distinct (d : Design) : Prop where
  modules : (d.modules.map (·.name)).Nodup
  wires : ∀ m ∈ d.modules, (m.wires.map (·.name)).Nodup

structure Indexed (d : Design) : Prop where
  ids : ∀ i m, d.module? i = some m → m.id = i
  modules : Inverts d.moduleIndex (d.modules.map (·.name))
  wires : ∀ m ∈ d.modules, Inverts m.wireIndex (m.wires.map (·.name))

namespace Indexed
variable {d : Design}

theorem distinct (h : d.Indexed) : d.Distinct :=
  ⟨h.modules.nodup, fun m hm => (h.wires m hm).nodup⟩

theorem moduleIndex?_eq_some_iff (h : d.Indexed) {name : String} {i : Nat} :
    d.moduleIndex? name = some i ↔ ∃ m, d.module? i = some m ∧ m.name = name :=
  h.modules.exists_iff

theorem moduleNamed?_eq_some_iff (h : d.Indexed) {name : String} {m : Module} :
    d.moduleNamed? name = some m ↔ m ∈ d.modules ∧ m.name = name := by
  simp only [moduleNamed?, Option.bind_eq_some_iff, h.moduleIndex?_eq_some_iff]
  constructor
  · rintro ⟨i, ⟨m', hm', hname⟩, hm⟩
    obtain rfl : m = m' := Option.some.inj (hm.symm.trans hm')
    exact ⟨List.mem_of_getElem? hm, hname⟩
  · rintro ⟨hmem, hname⟩
    obtain ⟨i, hm⟩ := List.getElem?_of_mem hmem
    exact ⟨i, ⟨m, hm, hname⟩, hm⟩

theorem wireIndex?_eq_some_iff (h : d.Indexed) {m : Module} (hm : m ∈ d.modules) {name : String}
    {k : Nat} : m.wireIndex? name = some k ↔ ∃ x, m.wires[k]? = some x ∧ x.name = name :=
  (h.wires m hm).exists_iff

theorem empty : Indexed {} := ⟨nofun, .empty, nofun⟩

theorem declareModule (h : d.Indexed) (name : String) : (d.declareModule name).2.Indexed := by
  unfold Design.declareModule
  split
  · exact h
  · rename_i hnew
    refine ⟨fun i m hm => ?_, ?_, fun m hm => ?_⟩
    · obtain hlt | hle := Nat.lt_or_ge i d.modules.length
      · exact h.ids i m ((List.getElem?_append_left hlt).symm.trans hm)
      · have hm := (List.getElem?_append_right hle).symm.trans hm
        rw [List.getElem?_singleton] at hm
        split at hm
        · cases hm
          dsimp only
          omega
        · cases hm
    · simpa using h.modules.append hnew
    · obtain hm | hm := List.mem_append.mp hm
      · exact h.wires m hm
      · rw [List.mem_singleton.mp hm]
        exact .empty

theorem modifyModule (h : d.Indexed) (i : Nat) {f : Module → Module} (hid : ∀ m, (f m).id = m.id)
    (hname : ∀ m, (f m).name = m.name)
    (hwires : ∀ m, d.module? i = some m → Inverts m.wireIndex (m.wires.map (·.name)) →
      Inverts (f m).wireIndex ((f m).wires.map (·.name))) : (d.modifyModule i f).Indexed := by
  refine ⟨fun j m hm => ?_, ?_, fun m hm => ?_⟩
  · have hids := List.getElem?_map (f := Module.id) (l := d.modules.modify i f) (i := j)
    rw [map_modify_of_forall hid, List.getElem?_map,
      show (d.modules.modify i f)[j]? = some m from hm]
      at hids
    obtain ⟨m', hm', hsame⟩ := Option.map_eq_some_iff.mp hids
    exact hsame.symm.trans (h.ids j m' hm')
  · rw [Design.modifyModule, map_modify_of_forall hname]
    exact h.modules
  · obtain hm | ⟨a, ha, rfl⟩ := mem_modify hm
    · exact h.wires m hm
    · exact hwires a ha (h.wires a (List.mem_of_getElem? ha))

theorem declareWire (h : d.Indexed) (i : Nat) (name : String) (width : Nat)
    (port : Option Direction) : (d.declareWire i name width port).2.Indexed := by
  unfold Design.declareWire
  split
  · exact h
  · rename_i m hm
    split
    · refine h.modifyModule i (fun _ => rfl) (fun _ => rfl) fun m' _ hinverts => ?_
      dsimp only
      rwa [map_modify_of_forall (widen_name width port)]
    · rename_i hnew
      refine h.modifyModule i (fun _ => rfl) (fun _ => rfl) fun m' hm' hinverts => ?_
      obtain rfl : m = m' := Option.some.inj (hm.symm.trans hm')
      simpa using hinverts.append hnew

theorem placeCell (h : d.Indexed) (i : Nat) (c : Cell) : (d.placeCell i c).Indexed :=
  h.modifyModule i (fun _ => rfl) (fun _ => rfl) fun _ _ hinverts => hinverts

end Indexed

theorem Built.indexed {d : Design} (h : d.Built) : d.Indexed := by
  induction h with
  | empty => exact .empty
  | declareModule _ name ih => exact ih.declareModule name
  | markTop _ i ih => exact ⟨ih.ids, ih.modules, ih.wires⟩
  | declareWire _ i name width port ih => exact ih.declareWire i name width port
  | placeCell _ i c ih => exact ih.placeCell i c

theorem Built.distinct {d : Design} (h : d.Built) : d.Distinct := h.indexed.distinct

theorem Built.addContents {d : Design} (h : d.Built) (i : Nat) (m : ModuleDocument) :
    (d.addContents i m).Built := by
  have hclaims : (m.claims.foldl (fun (k : Design × BitOwners) claim =>
      ((k.1.declareWire i claim.1 claim.2.1.width claim.2.2).2,
        k.2.claim claim.2.1 (k.1.declareWire i claim.1 claim.2.1.width claim.2.2).1))
      (d, [])).1.Built :=
    List.foldlRecOn (motive := fun k : Design × BitOwners => k.1.Built) _ _ h
      fun _ hk claim _ => hk.declareWire i claim.1 _ claim.2.2
  exact List.foldlRecOn (motive := Built) _ _ hclaims fun _ hd cell _ => hd.placeCell i _

end Design

theorem NetlistDocument.toDesign_built {doc : NetlistDocument} {d : Design}
    (h : doc.toDesign = .ok d) : d.Built := by
  unfold toDesign at h
  cases htop : doc.topName? with
  | error fault =>
    rw [htop] at h
    cases h
  | ok top =>
    rw [htop] at h
    obtain rfl := Except.ok.inj h
    have hmodules : (doc.modules.foldl (fun (d : Design) m => (d.declareModule m.1).2) {}).Built :=
      List.foldlRecOn (motive := Design.Built) _ _ .empty fun _ hd m _ => hd.declareModule m.1
    refine List.foldlRecOn (motive := Design.Built) _ _ hmodules fun d hd m _ => ?_
    refine Design.Built.addContents ?_ _ _
    split
    · exact hd.markTop _
    · exact hd

theorem Design.read_built {text : String} {d : Design} (h : Design.read text = .ok d) :
    d.Built := by
  unfold Design.read at h
  split at h
  · cases h
  · exact NetlistDocument.toDesign_built h

end ClockTree
