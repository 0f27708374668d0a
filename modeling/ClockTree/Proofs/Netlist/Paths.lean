import ClockTree.Proofs.Name.Literal
import ClockTree.Proofs.Netlist.Built
import ClockTree.Proofs.Propagation.Fuel
import ClockTree.Proofs.Script.Words
import Mathlib.Data.List.Basic
import Mathlib.Data.List.Sigma

/-!
# Paths determine wires

When names are made of letters, digits and underscores, the slash of a path is the one between a
module and a wire. Two wires of a design then never have one path, and a search by a path, which is
a literal pattern, finds the one wire that has it.
-/
namespace ClockTree

def isNameChar (c : Char) : Bool := c.isAlphanum || c == '_'

def IsName (s : String) : Prop := s ≠ "" ∧ ∀ c ∈ s.toList, isNameChar c

instance : DecidablePred IsName := fun s =>
  decidable_of_iff (s ≠ "" ∧ s.toList.all isNameChar) <| by simp only [IsName, List.all_eq_true]

def IsPath (s : String) : Prop := s ≠ "" ∧ ∀ c ∈ s.toList, isNameChar c || c == '/'

instance : DecidablePred IsPath := fun s =>
  decidable_of_iff (s ≠ "" ∧ s.toList.all fun c => isNameChar c || c == '/') <| by
    simp only [IsPath, List.all_eq_true]

theorem IsName.slash_notMem {s : String} (h : IsName s) : '/' ∉ s.toList :=
  fun hmem => absurd (h.2 '/' hmem) (by decide)

theorem IsName.isPath {s : String} (h : IsName s) : IsPath s :=
  ⟨h.1, fun c hc => by rw [h.2 c hc, Bool.true_or]⟩

theorem IsName.append_slash {s t : String} (hs : IsName s) (ht : IsName t) :
    IsPath (s ++ "/" ++ t) := by
  refine ⟨fun hempty => hs.1 ?_, fun c hc => ?_⟩
  · simp only [String.append_eq_empty_iff] at hempty
    exact hempty.1.1
  · simp only [String.toList_append, List.mem_append] at hc
    obtain (hc | hc) | hc := hc
    · exact hs.isPath.2 c hc
    · have hslash : "/".toList = ['/'] := by decide
      rw [hslash, List.mem_singleton] at hc
      rw [hc]
      decide
    · exact ht.isPath.2 c hc

theorem isPathChar_cases {c : Char} (h : isNameChar c || c == '/') :
    c.isAlphanum ∨ c = '_' ∨ c = '/' := by
  simpa [isNameChar, or_assoc] using h

theorem IsPath.plain {s : String} (h : IsPath s) : Script.Plain s := by
  refine ⟨h.1, fun c hc => ?_⟩
  obtain hc | rfl | rfl := isPathChar_cases (h.2 c hc)
  · exact Script.isSpecial_of_isAlphanum hc
  · decide
  · decide

theorem IsPath.isLiteral {s : String} (h : IsPath s) : NamePattern.IsLiteral s := by
  refine ⟨h.1, fun c hc => ?_⟩
  have hc := isPathChar_cases (h.2 c hc)
  simp only [Glob.isMeta, Bool.or_eq_false_iff, beq_eq_false_iff_ne]
  refine ⟨⟨⟨⟨⟨?_, ?_⟩, ?_⟩, ?_⟩, ?_⟩, ?_⟩ <;> intro same <;> subst same <;> exact absurd hc (by decide)

theorem IsPath.head?_ne {s : String} (h : IsPath s) : s.toList.head? ≠ some '-' :=
  fun hhead => absurd (h.2 '-' (List.mem_of_head? hhead)) (by decide)

theorem eq_singleton {α : Type} {l : List α} {a : α} (hl : l.Nodup) (h : ∀ b, b ∈ l ↔ b = a) :
    l = [a] := by
  refine List.perm_singleton.mp ((List.perm_ext_iff_of_nodup hl (List.nodup_singleton a)).mpr
    fun b => ?_)
  rw [h, List.mem_singleton]

namespace Design
variable {d : Design} {a b w : WireKey} {s : String} {p : NamePattern}

structure Named (d : Design) : Prop where
  modules : ∀ m ∈ d.modules, IsName m.name
  wires : ∀ m ∈ d.modules, ∀ w ∈ m.wires, IsName w.name

theorem path?_eq_some_iff : d.path? w = some s ↔
    ∃ m x, d.modules[w.module]? = some m ∧ m.wires[w.wire]? = some x ∧
      (if d.top = some w.module then x.name else m.name ++ "/" ++ x.name) = s := by
  simp [path?, module?, Option.bind_eq_some_iff]

theorem exists_path (h : (d.wire? w).isSome) : ∃ s, d.path? w = some s :=
  Option.isSome_iff_exists.mp (Walk.path?_isSome.trans h)

theorem exists_paths {ws : List WireKey} (h : ∀ w ∈ ws, (d.wire? w).isSome) :
    ∃ path, (∀ w ∈ ws, d.path? w = some (path w)) ∧ d.paths ws = ws.map path := by
  have hpath : ∀ w ∈ ws, d.path? w = some ((d.path? w).getD "") := fun w hw => by
    obtain ⟨s, hs⟩ := exists_path (h w hw)
    rw [hs, Option.getD_some]
  refine ⟨_, hpath, ?_⟩
  rw [paths, ← List.filterMap_eq_map]
  exact List.filterMap_congr hpath

theorem Named.isPath (h : d.Named) (hw : d.path? w = some s) : IsPath s := by
  obtain ⟨m, x, hm, hx, rfl⟩ := path?_eq_some_iff.mp hw
  have hm := List.mem_of_getElem? hm
  have hx := h.wires m hm x (List.mem_of_getElem? hx)
  split
  · exact hx.isPath
  · exact (h.modules m hm).append_slash hx

theorem mem_paths {ws : List WireKey} : s ∈ d.paths ws ↔ ∃ w ∈ ws, d.path? w = some s := by
  rw [paths, List.mem_filterMap]

theorem Named.isPath_of_mem (h : d.Named) {ws : List WireKey} (hs : s ∈ d.paths ws) : IsPath s := by
  obtain ⟨w, -, hw⟩ := mem_paths.mp hs
  exact h.isPath hw

theorem Distinct.eq_of_names (h : d.Distinct) {m m' : Module} {x x' : Wire}
    (hm : d.modules[a.module]? = some m) (hm' : d.modules[b.module]? = some m')
    (hx : m.wires[a.wire]? = some x) (hx' : m'.wires[b.wire]? = some x') (hname : m.name = m'.name)
    (hwire : x.name = x'.name) : a = b := by
  obtain ⟨i, j⟩ := a
  obtain ⟨i', j'⟩ := b
  obtain rfl : i = i' := eq_of_nodup_map h.modules hm hm' hname
  obtain rfl : m = m' := Option.some.inj (hm.symm.trans hm')
  obtain rfl : j = j' := eq_of_nodup_map (h.wires m (List.mem_of_getElem? hm)) hx hx' hwire
  rfl

theorem path?_injective (h : d.Distinct) (hnamed : d.Named) (ha : d.path? a = some s)
    (hb : d.path? b = some s) : a = b := by
  obtain ⟨m, x, hm, hx, rfl⟩ := path?_eq_some_iff.mp ha
  obtain ⟨m', x', hm', hx', hsame⟩ := path?_eq_some_iff.mp hb
  have hmem := List.mem_of_getElem? hm
  have hmem' := List.mem_of_getElem? hm'
  have hslash := (hnamed.wires m hmem x (List.mem_of_getElem? hx)).slash_notMem
  have hslash' := (hnamed.wires m' hmem' x' (List.mem_of_getElem? hx')).slash_notMem
  by_cases htop : d.top = some a.module
  · by_cases htop' : d.top = some b.module
    · have hmodule : a.module = b.module := Option.some.inj (htop.symm.trans htop')
      obtain rfl : m = m' := Option.some.inj (hm.symm.trans (hmodule ▸ hm'))
      rw [if_pos htop, if_pos htop'] at hsame
      exact h.eq_of_names hm hm' hx hx' rfl hsame.symm
    · rw [if_pos htop, if_neg htop'] at hsame
      exact absurd (by rw [← hsame]; simp) hslash
  · by_cases htop' : d.top = some b.module
    · rw [if_neg htop, if_pos htop'] at hsame
      exact absurd (by rw [hsame]; simp) hslash'
    · rw [if_neg htop, if_neg htop'] at hsame
      -- the one slash of either path is between the module and the wire
      have hlists : m.name.toList ++ '/' :: x.name.toList =
          m'.name.toList ++ '/' :: x'.name.toList := by
        have := congrArg String.toList hsame
        simpa using this.symm
      obtain ⟨hname, -, hwire⟩ := (List.append_cons_inj_of_notMem
        (hnamed.modules m hmem).slash_notMem hslash).mp hlists
      exact h.eq_of_names hm hm' hx hx' (String.toList_inj.mp hname) (String.toList_inj.mp hwire)

theorem wireRefs_nodup (d : Design) : d.wireRefs.Nodup := by
  refine List.nodup_flatMap.mpr ⟨fun x _ => ?_, ?_⟩
  · exact (List.nodup_range).map fun i j same => (WireKey.mk.inj same).2
  · have hpositions := List.pairwise_map.mp (List.nodup_zipIdx_map_snd d.modules)
    refine hpositions.imp fun hne w hw hw' => hne ?_
    obtain ⟨i, -, rfl⟩ := List.mem_map.mp hw
    obtain ⟨j, -, hj⟩ := List.mem_map.mp hw'
    exact (WireKey.mk.inj hj).1.symm

def Fits (d : Design) (p : NamePattern) (w : WireKey) : Prop := ∃ s, d.path? w = some s ∧ p.accepts s

theorem fits_iff (hw : d.path? w = some s) : d.Fits p w ↔ p.accepts s := by
  simp [Fits, hw]

theorem mem_wiresMatching : w ∈ d.wiresMatching p ↔ d.Fits p w := by
  rw [wiresMatching, List.mem_filter, Fits]
  constructor
  · rintro ⟨hw, haccepts⟩
    obtain ⟨s, hs⟩ := exists_path (mem_wireRefs.mp hw)
    exact ⟨s, hs, by simpa [hs] using haccepts⟩
  · rintro ⟨s, hs, haccepts⟩
    exact ⟨mem_wireRefs.mpr (Walk.wire?_of_path hs), by simpa [hs] using haccepts⟩

theorem wiresMatching_path (h : d.Distinct) (hnamed : d.Named) (hw : d.path? w = some s) :
    d.wiresMatching (.literal s) = [w] := by
  refine eq_singleton (d.wireRefs_nodup.filter _) fun b => ?_
  rw [mem_wiresMatching]
  constructor
  · rintro ⟨t, ht, haccepts⟩
    exact path?_injective h hnamed ht (NamePattern.literal_accepts.mp haccepts ▸ hw)
  · rintro rfl
    exact ⟨s, hw, NamePattern.literal_accepts.mpr rfl⟩

theorem mem_portsMatching : w ∈ d.portsMatching p ↔
    ∃ m x, d.top = some w.module ∧ d.modules[w.module]? = some m ∧ m.wires[w.wire]? = some x ∧
      x.port.isSome ∧ p.accepts x.name := by
  obtain ⟨i, j⟩ := w
  unfold portsMatching topModule? module?
  cases htop : d.top with
  | none => simp
  | some top =>
    cases hm : d.modules[top]? with
    | none =>
      simp only [Option.bind_some, hm, List.not_mem_nil, false_iff]
      rintro ⟨m, x, same, hm', -⟩
      cases same
      cases hm.symm.trans hm'
    | some m =>
      simp only [Option.bind_some, hm, List.mem_map, List.mem_filter, Prod.exists,
        List.mk_mem_zipIdx_iff_getElem?, Bool.and_eq_true, WireKey.mk.injEq, Option.some.injEq]
      constructor
      · rintro ⟨x, k, ⟨hx, hport, haccepts⟩, rfl, rfl⟩
        exact ⟨m, x, rfl, hm, hx, hport, haccepts⟩
      · rintro ⟨m', x, rfl, hm', hx, hport, haccepts⟩
        obtain rfl : m = m' := Option.some.inj (hm.symm.trans hm')
        exact ⟨x, j, ⟨hx, hport, haccepts⟩, rfl, rfl⟩

theorem isOuterPort_iff : d.isOuterPort w ↔
    ∃ m x, d.top = some w.module ∧ d.modules[w.module]? = some m ∧ m.wires[w.wire]? = some x ∧
      x.port.isSome := by
  unfold isOuterPort wire? module?
  rw [Bool.and_eq_true, beq_iff_eq]
  cases hm : d.modules[w.module]? with
  | none => simp
  | some m => cases hx : m.wires[w.wire]? <;> simp [hx]

theorem mem_portsMatching_iff : w ∈ d.portsMatching p ↔ d.isOuterPort w ∧ d.Fits p w := by
  rw [mem_portsMatching, isOuterPort_iff, Fits]
  simp only [path?_eq_some_iff]
  constructor
  · rintro ⟨m, x, htop, hm, hx, hport, haccepts⟩
    exact ⟨⟨m, x, htop, hm, hx, hport⟩, x.name, ⟨m, x, hm, hx, if_pos htop⟩, haccepts⟩
  · rintro ⟨⟨m, x, htop, hm, hx, hport⟩, s, ⟨m', x', hm', hx', rfl⟩, haccepts⟩
    obtain rfl : m = m' := Option.some.inj (hm.symm.trans hm')
    obtain rfl : x = x' := Option.some.inj (hx.symm.trans hx')
    rw [if_pos htop] at haccepts
    exact ⟨m, x, htop, hm, hx, hport, haccepts⟩

theorem portsMatching_nodup (d : Design) (p : NamePattern) : (d.portsMatching p).Nodup := by
  unfold portsMatching
  split
  · rename_i top m _ _
    have hpositions := (List.nodup_zipIdx_map_snd m.wires).sublist
      ((List.filter_sublist (p := fun x => x.1.port.isSome && p.accepts x.1.name)).map Prod.snd)
    have hkeys := hpositions.map fun i j (same : WireKey.mk top i = ⟨top, j⟩) =>
      (WireKey.mk.inj same).2
    rwa [List.map_map] at hkeys
  · exact List.nodup_nil

theorem portsMatching_eq_singleton (h : d.Distinct) (hport : d.isOuterPort w)
    (hw : d.path? w = some s) (hp : ∀ name, p.accepts name ↔ name = s) :
    d.portsMatching p = [w] := by
  obtain ⟨m, x, htop, hm, hx, hsome⟩ := isOuterPort_iff.mp hport
  obtain ⟨m', x', hm', hx', hname⟩ := path?_eq_some_iff.mp hw
  obtain rfl : m = m' := Option.some.inj (hm.symm.trans hm')
  obtain rfl : x = x' := Option.some.inj (hx.symm.trans hx')
  rw [if_pos htop] at hname
  refine eq_singleton (d.portsMatching_nodup _) fun b => ?_
  rw [mem_portsMatching]
  constructor
  · rintro ⟨n, y, htopb, hn, hy, -, haccepts⟩
    have hmodule : b.module = w.module := Option.some.inj (htopb.symm.trans htop)
    obtain rfl : m = n := Option.some.inj (hm.symm.trans (hmodule ▸ hn))
    exact h.eq_of_names hn hm hy hx rfl (((hp _).mp haccepts).trans hname.symm)
  · rintro rfl
    exact ⟨m, x, htop, hm, hx, hsome, (hp _).mpr hname⟩

theorem portsMatching_path (h : d.Distinct) (hport : d.isOuterPort w) (hw : d.path? w = some s) :
    d.portsMatching (.literal s) = [w] :=
  portsMatching_eq_singleton h hport hw fun _ => NamePattern.literal_accepts

end Design
end ClockTree
