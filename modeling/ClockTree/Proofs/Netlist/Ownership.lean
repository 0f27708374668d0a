import Mathlib
import ClockTree.Proofs.Netlist.Loading

/-!
# Which wires a cell is connected to

Every name of a module lists bits, and the first name that lists a bit owns it: ports before visible
nets before hidden nets, each in name order. A port of a cell is connected to the wires of the names
that own its bits. Two ports that share an owned bit are so connected to one wire.
-/
namespace ClockTree

namespace ModuleDocument

def owner? (m : ModuleDocument) (bit : Nat) : Option String :=
  let port := m.ports.find? fun p => p.2.2.numbers.contains bit
  let visible := m.nets.find? fun n => !n.2.hidden && n.2.bits.numbers.contains bit
  let hidden := m.nets.find? fun n => n.2.hidden && n.2.bits.numbers.contains bit
  (port.map (·.1)).or ((visible.map (·.1)).or (hidden.map (·.1)))

/-- The wires of the names that own some bits, in the order of the bits and each once. -/
def wiresOwning (m : ModuleDocument) (x : Module) (bits : Bits) : List Nat :=
  (bits.numbers.filterMap fun bit => (m.owner? bit).bind x.wireIndex?).eraseDups

structure Connects (m : ModuleDocument) (x : Module) : Prop where
  owners : ∀ bit name, m.owner? bit = some name → (x.wireIndex? name).isSome
  cells : x.cells.map (·.name) = m.cells.map (·.1)
  ports : ∀ p ∈ m.cells.zip x.cells, ∀ e ∈ p.1.2.connections,
    p.2.wiresOn e.1 = m.wiresOwning x e.2
  shared : ∀ p ∈ m.cells.zip x.cells, ∀ q ∈ m.cells.zip x.cells,
    ∀ e ∈ p.1.2.connections, ∀ f ∈ q.1.2.connections, ∀ bit ∈ e.2.numbers, bit ∈ f.2.numbers →
      (m.owner? bit).isSome → ∃ w ∈ p.2.wiresOn e.1, w ∈ q.2.wiresOn f.1

theorem find?_claims (m : ModuleDocument) (bit : Nat) :
    (m.claims.find? (Claim.lists · bit)).map (·.1) = m.owner? bit := by
  simp only [claims, owner?, List.find?_append, List.find?_map, List.find?_filter, Option.map_or,
    Option.map_map, Option.or_assoc, Function.comp_def, Claim.lists, Bool.decide_and,
    Bool.decide_eq_true]

theorem owner?_eq_some {m : ModuleDocument} {bit : Nat} {name : String}
    (h : m.owner? bit = some name) :
    ∃ claim, m.claims.find? (Claim.lists · bit) = some claim ∧ claim.1 = name :=
  Option.map_eq_some_iff.mp (m.find?_claims bit ▸ h)

end ModuleDocument

theorem flatMap_of_nodup {ε κ β : Type} {key : ε → κ} {es : List ε} (h : (es.map key).Nodup)
    {e : ε} (he : e ∈ es) {f : ε → List β} (hf : ∀ e', key e' ≠ key e → f e' = []) :
    es.flatMap f = f e := by
  induction es with
  | nil => cases he
  | cons first es ih =>
    obtain ⟨hnew, hnodup⟩ := List.nodup_cons.mp h
    rw [List.flatMap_cons]
    obtain rfl | he := List.mem_cons.mp he
    · have hothers : es.flatMap f = [] := List.flatMap_eq_nil_iff.mpr fun other hother =>
        hf other fun same => hnew (List.mem_map.mpr ⟨other, hother, same⟩)
      rw [hothers, List.append_nil]
    · have hnone : f first = [] := hf first fun same =>
        hnew (List.mem_map.mpr ⟨e, he, same.symm⟩)
      rw [hnone, List.nil_append, ih hnodup he]

namespace CellDocument
variable {c : CellDocument} {owners : BitOwners} {name : String}

theorem connections_ofCalls :
    (Cell.ofCalls name c.kind (c.calls owners)).connections = c.connections.flatMap fun e =>
      (owners.wires e.2).map (⟨e.1, c.direction e.1, ·⟩) := by
  have hparams : (c.params.map fun p => CellCall.param p.1 p.2).filterMap CellCall.connection? =
      [] := by
    rw [List.filterMap_map]
    exact List.filterMap_eq_nil_iff.mpr fun _ _ => rfl
  rw [Cell.ofCalls_connections, calls, List.filterMap_append, hparams, List.nil_append,
    List.filterMap_flatMap]
  refine congrArg (List.flatMap · _) (funext fun e => ?_)
  rw [List.filterMap_map, ← List.filterMap_eq_map]
  rfl

theorem wiresOn_ofCalls (h : (c.connections.map (·.1)).Nodup) {e : String × Bits}
    (he : e ∈ c.connections) :
    (Cell.ofCalls name c.kind (c.calls owners)).wiresOn e.1 = owners.wires e.2 := by
  rw [Cell.wiresOn, connections_ofCalls, List.filter_flatMap, flatMap_of_nodup h he]
  · rw [List.filter_map, List.map_map]
    simp [Function.comp_def]
  · intro other hother
    rw [List.filter_map]
    simp [Function.comp_def, hother]

end CellDocument

namespace PlannedModule
open Construction
variable {p : PlannedModule} {i : Nat} {x : Module} {b : Construction} {past : List BuildCall}

/-- The wire that was returned for the first name that lists a bit is the one with that name. -/
theorem lookup_owners (haccords : Accords past b)
    (hfollow : p.owners.Follow p.contents.claims i b) (hx : b.design.module? i = some x)
    (bit : Nat) : p.owners.lookup bit = (p.contents.owner? bit).bind x.wireIndex? := by
  rw [← ModuleDocument.find?_claims]
  cases hclaim : p.contents.claims.find? (Claim.lists · bit) with
  | none => exact hfollow.unclaimed bit hclaim
  | some claim =>
    obtain ⟨w, hw, hissued⟩ := hfollow.claimed bit claim hclaim
    exact hw.trans (haccords.wireIndex? hissued hx).symm

theorem connects (haccords : Accords past b) (hfollow : p.owners.Follow p.contents.claims i b)
    (horder : p.contents.InNameOrder) (hx : b.design.module? i = some x)
    (hcells : x.cells = p.contents.cells.map fun c =>
      .ofCalls c.1 c.2.kind (c.2.calls p.owners)) : p.contents.Connects x := by
  have howner : ∀ bit name, p.contents.owner? bit = some name →
      (x.wireIndex? name).isSome := fun bit name h => by
    obtain ⟨claim, hclaim, rfl⟩ := ModuleDocument.owner?_eq_some h
    obtain ⟨w, -, hissued⟩ := hfollow.claimed bit claim hclaim
    rw [haccords.wireIndex? hissued hx, Option.isSome_some]
  have hports : ∀ q ∈ p.contents.cells.zip x.cells, ∀ e ∈ q.1.2.connections,
      q.2.wiresOn e.1 = p.contents.wiresOwning x e.2 := fun q hq e he => by
    rw [hcells, ← List.map_prod_left_eq_zip] at hq
    obtain ⟨c, hc, rfl⟩ := List.mem_map.mp hq
    rw [CellDocument.wiresOn_ofCalls (horder.connections c hc).nodup he, BitOwners.wires_eq]
    exact congrArg (fun f => (e.2.numbers.filterMap f).eraseDups)
      (funext (lookup_owners haccords hfollow hx))
  refine ⟨howner, ?_, hports, fun q hq r hr e he f hf bit hbit hbit' howned => ?_⟩
  · rw [hcells, List.map_map]
    exact List.map_congr_left fun c _ => (Cell.ofCalls_header _ _ _).1
  · obtain ⟨name, hname⟩ := Option.isSome_iff_exists.mp howned
    obtain ⟨w, hw⟩ := Option.isSome_iff_exists.mp (howner bit name hname)
    have hjoined : ∀ bits : Bits, bit ∈ bits.numbers → w ∈ p.contents.wiresOwning x bits :=
      fun bits hbits => List.mem_eraseDups.mpr (List.mem_filterMap.mpr
        ⟨bit, hbits, by rw [hname, Option.bind_some, hw]⟩)
    exact ⟨w, hports q hq e he ▸ hjoined _ hbit, hports r hr f hf ▸ hjoined _ hbit'⟩

end PlannedModule

namespace NetlistDocument

theorem cell?_planCalls (top : Option String) {plan : List PlannedModule} {p : PlannedModule}
    {i : Nat} (hp : plan[i]? = some p) : (planCalls top plan).filterMap (·.cell? i) =
      p.contents.cells.map fun c => .ofCalls c.1 c.2.kind (c.2.calls p.owners) := by
  have hmodules : (plan.map fun p => BuildCall.module p.name).filterMap (·.cell? i) = [] := by
    rw [List.filterMap_map]
    exact List.filterMap_eq_nil_iff.mpr fun _ _ => rfl
  rw [planCalls, contentsCalls, List.filterMap_append, hmodules, List.nil_append,
    List.filterMap_flatMap]
  have hmem : (p, i) ∈ plan.zipIdx := List.mk_mem_zipIdx_iff_getElem?.mpr hp
  have hnodup : (plan.zipIdx.map (·.2)).Nodup := by
    rw [List.zipIdx_map_snd]
    exact List.nodup_range'
  rw [flatMap_of_nodup hnodup hmem, PlannedModule.cell?_calls, if_pos rfl]
  exact fun other hother => PlannedModule.cell?_calls i ▸ if_neg hother

end NetlistDocument

theorem Design.read_connects {text : String} {d : Design} (h : Design.read text = .ok d) :
    ∃ doc, NetlistDocument.read? text = some doc ∧ doc.InNameOrder ∧
      ∀ i name m, doc.modules[i]? = some (name, m) →
        ∃ x, d.module? i = some x ∧ x.name = name ∧ m.Connects x := by
  unfold Design.read at h
  cases hdoc : NetlistDocument.read? text with
  | none =>
    rw [hdoc] at h
    cases h
  | some doc =>
    rw [hdoc] at h
    have horder := NetlistDocument.read?_inNameOrder hdoc
    refine ⟨doc, rfl, horder, fun i name m hm => ?_⟩
    obtain ⟨top, plan, hplan, rfl, hadmits, hplanned⟩ :=
      NetlistDocument.toDesign_calls horder.modules.nodup h
    have haccords := Construction.Accords.calls (Construction.Throughout.and_iff.mp hadmits).1
    rw [← hplan, List.getElem?_map] at hm
    obtain ⟨p, hp, hsame⟩ := Option.map_eq_some_iff.mp hm
    obtain ⟨rfl, rfl⟩ := Prod.mk.inj hsame
    have hmem : (p, i) ∈ plan.zipIdx := List.mk_mem_zipIdx_iff_getElem?.mpr hp
    obtain ⟨hmodule, hfollow⟩ := hplanned _ hmem
    obtain ⟨x, hx, hname⟩ := haccords.modules _ hmodule
    refine ⟨x, hx, hname, p.connects haccords hfollow ?_ hx ?_⟩
    · exact horder.contents (p.name, p.contents)
        (hplan ▸ List.mem_map_of_mem (List.mem_of_getElem? hp))
    · rw [haccords.cells i x hx]
      exact NetlistDocument.cell?_planCalls top hp

def aliasedText : String :=
  "\x7b\"modules\":\x7b\"top\":\x7b" ++
  "\"ports\":\x7b\"clk\":\x7b\"direction\":\"input\",\"bits\":[2]\x7d\x7d," ++
  "\"cells\":\x7b\"u\":\x7b\"type\":\"BUFG\"," ++
  "\"connections\":\x7b\"I\":[2,3,\"0\",2],\"O\":[4,9]\x7d\x7d\x7d," ++
  "\"netnames\":\x7b\"a\":\x7b\"bits\":[3,4],\"hide_name\":1\x7d," ++
  "\"b\":\x7b\"bits\":[2,3]\x7d\x7d\x7d\x7d\x7d"

def aliased : Design where
  modules := [⟨0, "top", [⟨"clk", 1, some .input⟩, ⟨"b", 2, none⟩, ⟨"a", 2, none⟩],
    [⟨"u", "BUFG", [], [⟨"I", .inout, 0⟩, ⟨"I", .inout, 1⟩, ⟨"O", .inout, 2⟩]⟩],
    .ofList [("clk", 0), ("b", 1), ("a", 2)]⟩]
  moduleIndex := .ofList [("top", 0)]

theorem Design.read_connects_aliased : Design.read aliasedText = .ok aliased ∧
    ∃ doc, NetlistDocument.read? aliasedText = some doc ∧ doc.InNameOrder ∧
      ∀ i name m, doc.modules[i]? = some (name, m) →
        ∃ x, aliased.module? i = some x ∧ x.name = name ∧ m.Connects x :=
  have hread : Design.read aliasedText = .ok aliased := by cbv
  ⟨hread, Design.read_connects hread⟩

end ClockTree
