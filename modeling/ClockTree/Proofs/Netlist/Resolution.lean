import ClockTree.Proofs.Netlist.Paths
import Mathlib.Data.List.TakeDrop

/-!
# Which paths lead back

A search by a path looks for a wire of the top module with this name first, and only then divides
the path at its first slash. The path of a wire of another module therefore leads back to the wire
unless the name of its module has a slash or the top module has a wire with this very name.
-/
namespace ClockTree.Design
variable {d : Design} {w : WireKey} {m : Module} {x : Wire} {s : String}

theorem splitAtSlash?_join {l r : String} (h : '/' ∉ l.toList) :
    splitAtSlash? (l ++ "/" ++ r) = some (l, r) := by
  have hlist : (l ++ "/" ++ r).toList = l.toList ++ '/' :: r.toList := by simp
  have hleft : ∀ c ∈ l.toList, c != '/' := fun c hc => by
    rw [bne_iff_ne]
    rintro rfl
    exact h hc
  unfold splitAtSlash?
  rw [hlist, List.span_eq_takeWhile_dropWhile, List.takeWhile_append_of_pos hleft,
    List.dropWhile_append_of_pos hleft]
  simp

theorem slash_notMem_of_split {l r : String} (h : splitAtSlash? s = some (l, r)) :
    '/' ∉ l.toList := by
  unfold splitAtSlash? at h
  rw [List.span_eq_takeWhile_dropWhile] at h
  split at h
  · cases h
  · rename_i left c right hspan
    cases h
    rw [String.toList_ofList, ← (Prod.mk.inj hspan).1]
    intro hmem
    simpa using List.all_eq_true.mp List.all_takeWhile '/' hmem

def TopHas (d : Design) (name : String) : Prop := ∃ t ∈ d.topModule?, ∃ y ∈ t.wires, y.name = name

theorem wireAt?_of_top (h : d.Indexed) {i : Nat} (htop : d.top = some i)
    (hm : d.module? i = some m) {k : Nat} (hk : m.wireIndex? s = some k) :
    d.wireAt? s = some ⟨i, k⟩ := by
  simp [wireAt?, topModule?, htop, hm, hk, h.ids i m hm]

theorem wireAt?_of_topHas (h : d.Indexed) (hs : d.TopHas s) :
    ∃ v, d.wireAt? s = some v ∧ d.top = some v.module := by
  obtain ⟨t, ht, y, hy, hname⟩ := hs
  obtain ⟨i, htop, hi⟩ := Option.bind_eq_some_iff.mp ht
  obtain ⟨k, hk⟩ := List.getElem?_of_mem hy
  have hfound := (h.wireIndex?_eq_some_iff (List.mem_of_getElem? hi)).mpr ⟨y, hk, hname⟩
  exact ⟨⟨i, k⟩, wireAt?_of_top h htop hi hfound, htop⟩

theorem wireAt?_of_not_topHas (h : d.Indexed) (hs : ¬ d.TopHas s) :
    d.wireAt? s = some w ↔ ∃ l r m, splitAtSlash? s = some (l, r) ∧
      d.moduleIndex? l = some w.module ∧ d.module? w.module = some m ∧
      m.wireIndex? r = some w.wire := by
  have htop : (d.topModule?.bind fun t =>
      (t.wireIndex? s).bind fun k => some (⟨t.id, k⟩ : WireKey)) = none := by
    refine Option.bind_eq_none_iff.mpr fun t ht => Option.bind_eq_none_iff.mpr fun k hk => ?_
    obtain ⟨i, -, hi⟩ := Option.bind_eq_some_iff.mp ht
    obtain ⟨y, hy, hname⟩ := (h.wireIndex?_eq_some_iff (List.mem_of_getElem? hi)).mp hk
    exact absurd ⟨t, ht, y, List.mem_of_getElem? hy, hname⟩ hs
  obtain ⟨i, k⟩ := w
  simp only [wireAt?, moduleNamed?, Option.bind_eq_bind, htop, Option.orElse_eq_orElse,
    Option.orElse_none, Option.bind_eq_some_iff, Prod.exists, Option.some.injEq, WireKey.mk.injEq]
  constructor
  · rintro ⟨l, r, hsplit, m, ⟨j, hj, hm⟩, k', hk', rfl, rfl⟩
    rw [h.ids j m hm]
    exact ⟨l, r, m, hsplit, hj, hm, hk'⟩
  · rintro ⟨l, r, m, hsplit, hj, hm, hk⟩
    exact ⟨l, r, hsplit, m, ⟨i, hj, hm⟩, k, hk, h.ids i m hm, rfl⟩

theorem path_leads_back_iff (h : d.Built) (hm : d.module? w.module = some m)
    (hx : m.wires[w.wire]? = some x) :
    ∃ path, d.path? w = some path ∧
      (d.wireAt? path = some w ↔
        d.top = some w.module ∨ '/' ∉ m.name.toList ∧ ¬ d.TopHas path) := by
  have hindexed := h.indexed
  have hmem := List.mem_of_getElem? hm
  have hmodule := hindexed.moduleIndex?_eq_some_iff.mpr ⟨m, hm, rfl⟩
  have hwire := (hindexed.wireIndex?_eq_some_iff hmem).mpr ⟨x, hx, rfl⟩
  by_cases htop : d.top = some w.module
  · refine ⟨x.name, path?_eq_some_iff.mpr ⟨m, x, hm, hx, if_pos htop⟩, ?_⟩
    exact iff_of_true (wireAt?_of_top hindexed htop hm hwire) (Or.inl htop)
  · refine ⟨_, path?_eq_some_iff.mpr ⟨m, x, hm, hx, if_neg htop⟩, ⟨fun hback => ?_, ?_⟩⟩
    · have hfree : ¬ d.TopHas (m.name ++ "/" ++ x.name) := fun hhas => by
        obtain ⟨v, hv, hvtop⟩ := wireAt?_of_topHas hindexed hhas
        exact htop (Option.some.inj (hv.symm.trans hback) ▸ hvtop)
      obtain ⟨l, r, m', hsplit, hl, hm', -⟩ := (wireAt?_of_not_topHas hindexed hfree).mp hback
      obtain ⟨m'', hm'', rfl⟩ := hindexed.moduleIndex?_eq_some_iff.mp hl
      obtain rfl : m = m'' := Option.some.inj (hm.symm.trans hm'')
      exact Or.inr ⟨slash_notMem_of_split hsplit, hfree⟩
    · rintro (hback | ⟨hslash, hfree⟩)
      · exact absurd hback htop
      · exact (wireAt?_of_not_topHas hindexed hfree).mpr
          ⟨m.name, x.name, m, splitAtSlash?_join hslash, hmodule, hm, hwire⟩

/-- Beside the top module, one module whose name has a slash and one whose wire has the path of a
wire of the top module. -/
def slashed : Design :=
  let d := ((({} : Design).declareModule "top").2.declareModule "a/b").2.declareModule "core"
  let d := ((d.2.markTop 0).declareWire 0 "core/clk" 1 none).2
  ((d.declareWire 1 "c" 1 none).2.declareWire 2 "clk" 1 none).2

theorem slashed_built : slashed.Built :=
  .declareWire (.declareWire (.declareWire (.markTop (.declareModule (.declareModule
    (.declareModule .empty _) _) _) _) _ _ _ _) _ _ _ _) _ _ _ _

theorem path_leads_back_iff_slashed :
    let m : Module := ⟨1, "a/b", [⟨"c", 1, none⟩], [], .insert {} "c" 0⟩
    slashed.Built ∧ slashed.module? 1 = some m ∧
      ∃ path, slashed.path? ⟨1, 0⟩ = some path ∧
        (slashed.wireAt? path = some ⟨1, 0⟩ ↔
          slashed.top = some 1 ∨ '/' ∉ "a/b".toList ∧ ¬ slashed.TopHas path) := by
  intro m
  have hm : slashed.module? 1 = some m := by rfl
  exact ⟨slashed_built, hm, path_leads_back_iff (w := ⟨1, 0⟩) slashed_built hm rfl⟩

theorem path_leads_astray :
    slashed.Built ∧
      slashed.path? ⟨1, 0⟩ = some "a/b/c" ∧ slashed.wireAt? "a/b/c" = none ∧
      slashed.path? ⟨2, 0⟩ = some "core/clk" ∧ slashed.wireAt? "core/clk" = some ⟨0, 0⟩ :=
  ⟨slashed_built, by decide, by decide, by decide, by decide⟩

end ClockTree.Design
