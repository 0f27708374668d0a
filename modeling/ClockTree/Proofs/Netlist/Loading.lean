import ClockTree.Proofs.Json.Canonical
import ClockTree.Proofs.Netlist.WellFormed

/-!
# Documents are loaded call by call

A document is loaded by calls that name what earlier calls returned, and that connect the cells of
a module to wires of that module. All names of a module have claimed their bits before its first
cell is added, so that a bit has one owner for all of them.
-/
namespace ClockTree

structure ModuleDocument.InNameOrder (m : ModuleDocument) : Prop where
  ports : Json.InNameOrder m.ports
  nets : Json.InNameOrder m.nets
  cells : Json.InNameOrder m.cells
  connections : ∀ c ∈ m.cells, Json.InNameOrder c.2.connections

structure NetlistDocument.InNameOrder (doc : NetlistDocument) : Prop where
  modules : Json.InNameOrder doc.modules
  contents : ∀ m ∈ doc.modules, m.2.InNameOrder

namespace NetlistDocument
open Json Schema

theorem readModule_inNameOrder {v : Json} (h : moduleSchema.Yields v) :
    (readModule v).InNameOrder := by
  have hports := holds_map (holds_member h (by decide) (.tail _ (.head _)))
  have hcells := holds_map (holds_member h (by decide) (.tail _ (.tail _ (.head _))))
  have hnets := holds_map (holds_member h (by decide) (.tail _ (.tail _ (.tail _ (.head _)))))
  refine ⟨hports.1.map fun _ => rfl, hnets.1.map fun _ => rfl, hcells.1.map fun _ => rfl,
    fun c hc => ?_⟩
  obtain ⟨member, hmember, rfl⟩ := List.mem_map.mp hc
  have hconnections := holds_map (holds_member (hcells.2 member hmember) (by decide)
    (.tail _ (.tail _ (.tail _ (.head _)))))
  exact hconnections.1.map fun _ => rfl

theorem read?_inNameOrder {text : String} {doc : NetlistDocument} (h : read? text = some doc) :
    doc.InNameOrder := by
  obtain ⟨v, hv, h⟩ := Option.bind_eq_some_iff.mp h
  obtain rfl := Option.some.inj h
  obtain ⟨raw, -, hv⟩ := Option.bind_eq_some_iff.mp hv
  have hmodules := holds_map (holds_member ⟨documentRoom, raw, hv⟩ (by decide)
    (.tail _ (.head _)))
  refine ⟨hmodules.1.map fun _ => rfl, fun m hm => ?_⟩
  obtain ⟨member, hmember, rfl⟩ := List.mem_map.mp hm
  exact readModule_inNameOrder (hmodules.2 member hmember)

end NetlistDocument

namespace BitOwners

theorem lookup_claim (owners : BitOwners) (bits : Bits) (wire bit : Nat) :
    (owners.claim bits wire).lookup bit =
      (owners.lookup bit).or (if bits.numbers.contains bit then some wire else none) := by
  unfold claim
  induction bits.numbers generalizing owners with
  | nil => simp
  | cons b numbers ih =>
    rw [List.foldl_cons, ih, List.contains_cons]
    by_cases hb : bit = b
    · subst hb
      cases ho : owners.lookup bit <;> simp [ho, List.lookup_append]
    · have hlookup : (if (owners.lookup b).isSome then owners else owners ++ [(b, wire)]).lookup
          bit = owners.lookup bit := by
        split
        · rfl
        · simp [List.lookup_append, hb]
      rw [hlookup, beq_eq_false_iff_ne.mpr hb, Bool.false_or]

theorem wires_eq (owners : BitOwners) (bits : Bits) :
    owners.wires bits = (bits.numbers.filterMap fun bit => owners.lookup bit).eraseDups := by
  unfold wires
  induction bits.numbers using List.reverseRecOn with
  | nil => rfl
  | append_singleton numbers b ih =>
    rw [List.foldl_concat, ih, List.filterMap_append, List.eraseDups_append]
    cases hb : owners.lookup b with
    | none => simp [hb]
    | some w =>
      have hlast : [b].filterMap (fun bit => owners.lookup bit) = [w] := by simp [hb]
      rw [hlast, List.cons_removeAll, List.nil_removeAll]
      dsimp only
      by_cases hw : w ∈ numbers.filterMap fun bit => owners.lookup bit
      · rw [if_pos (List.contains_iff_mem.mpr (List.mem_eraseDups.mpr hw)),
          List.contains_iff_mem.mpr hw]
        exact (List.append_nil _).symm
      · rw [if_neg (mt List.contains_iff_mem.mp (mt List.mem_eraseDups.mp hw)),
          Bool.eq_false_iff.mpr (mt List.contains_iff_mem.mp hw)]
        rfl

end BitOwners

namespace Construction
variable {b : Construction} {c c' : BuildCall} {cs : List BuildCall}

def Admits (b : Construction) (c : BuildCall) : Prop := b.Knows c ∧ b.Owns c

theorem modules_subset_call (b : Construction) (c : BuildCall) :
    b.modules ⊆ (b.call c).modules := by
  cases c with
  | module name => exact List.subset_append_left _ _
  | _ => exact List.Subset.refl _

theorem wires_subset_call (b : Construction) (c : BuildCall) : b.wires ⊆ (b.call c).wires := by
  cases c with
  | wire i name width port => exact List.subset_append_left _ _
  | _ => exact List.Subset.refl _

theorem modules_subset_calls (b : Construction) (cs : List BuildCall) :
    b.modules ⊆ (b.calls cs).modules := by
  induction cs generalizing b with
  | nil => exact List.Subset.refl _
  | cons c cs ih => exact List.Subset.trans (b.modules_subset_call c) (ih _)

theorem wires_subset_calls (b : Construction) (cs : List BuildCall) :
    b.wires ⊆ (b.calls cs).wires := by
  induction cs generalizing b with
  | nil => exact List.Subset.refl _
  | cons c cs ih => exact List.Subset.trans (b.wires_subset_call c) (ih _)

theorem Owns.knows (h : b.Owns c) (hmodule : ∀ i ∈ c.module?, ∃ e ∈ b.modules, e.2 = i) :
    b.Admits c :=
  ⟨⟨hmodule, fun v hv => (h v hv).imp fun _ he => ⟨he.1, congrArg _ he.2⟩⟩, h⟩

theorem Admits.call (h : b.Admits c') : (b.call c).Admits c' := by
  refine Owns.knows (fun v hv => ?_) fun i hi => ?_
  · obtain ⟨e, he, heq⟩ := h.2 v hv
    exact ⟨e, b.wires_subset_call c he, heq⟩
  · obtain ⟨e, he, heq⟩ := h.1.1 i hi
    exact ⟨e, b.modules_subset_call c he, heq⟩

end Construction

abbrev Claim := String × Bits × Option Direction

namespace Claim

def lists (claim : Claim) (bit : Nat) : Bool := claim.2.1.numbers.contains bit

def call (i : Nat) (claim : Claim) : BuildCall := .wire i claim.1 claim.2.1.width claim.2.2

end Claim

namespace CellDocument

def calls (c : CellDocument) (owners : BitOwners) : List CellCall :=
  c.params.map (fun p => .param p.1 p.2) ++
    c.connections.flatMap fun e => (owners.wires e.2).map (.connect e.1 (c.direction e.1) ·)

theorem toCell_eq (c : CellDocument) (owners : BitOwners) (name : String) :
    c.toCell owners name = .ofCalls name c.kind (c.calls owners) := by
  simp only [toCell, Cell.ofCalls, calls, List.foldl_append, List.foldl_map, List.foldl_flatMap]
  rfl

end CellDocument

namespace BitOwners

/-- The owners of the bits that some names claim: wires of a module, each returned for the first
name that lists the bit. -/
structure Follow (owners : BitOwners) (claims : List Claim) (i : Nat) (b : Construction) :
    Prop where
  unclaimed : ∀ bit, claims.find? (·.lists bit) = none → owners.lookup bit = none
  claimed : ∀ bit claim, claims.find? (·.lists bit) = some claim →
    ∃ w, owners.lookup bit = some w ∧ (claim.1, WireKey.mk i w) ∈ b.wires

variable {owners : BitOwners} {past : List Claim} {i : Nat} {b : Construction}

theorem Follow.start (i : Nat) (b : Construction) : Follow [] [] i b :=
  ⟨fun _ _ => rfl, fun _ _ h => by cases h⟩

theorem Follow.calls (h : owners.Follow past i b) (cs : List BuildCall) :
    owners.Follow past i (b.calls cs) :=
  ⟨h.unclaimed, fun bit claim hclaim =>
    (h.claimed bit claim hclaim).imp fun _ hw => ⟨hw.1, b.wires_subset_calls cs hw.2⟩⟩

theorem Follow.claim (h : owners.Follow past i b) (claim : Claim) :
    (owners.claim claim.2.1 (b.design.declareWire i claim.1 claim.2.1.width claim.2.2).1).Follow
      (past ++ [claim]) i (b.call (claim.call i)) := by
  refine ⟨fun bit hnone => ?_, fun bit found hfound => ?_⟩
  · rw [List.find?_append, Option.or_eq_none_iff, List.find?_singleton] at hnone
    have hlast : ¬claim.lists bit = true := by simpa using hnone.2
    rw [lookup_claim, h.unclaimed bit hnone.1, Option.none_or]
    exact if_neg hlast
  · rw [List.find?_append, List.find?_singleton, Option.or_eq_some_iff] at hfound
    rw [lookup_claim]
    obtain hpast | ⟨hpast, hlast⟩ := hfound
    · obtain ⟨w, hw, hissued⟩ := h.claimed bit found hpast
      exact ⟨w, by rw [hw, Option.some_or], b.wires_subset_call _ hissued⟩
    · obtain ⟨hlists, hsame⟩ := Option.ite_none_right_eq_some.mp hlast
      obtain rfl := Option.some.inj hsame
      rw [h.unclaimed bit hpast, Option.none_or]
      exact ⟨_, if_pos hlists, List.mem_append_right _ (List.mem_singleton.mpr rfl)⟩

theorem Follow.claims (h : owners.Follow past i b) (claims : List Claim) :
    let r := claims.foldl (fun (k : Design × BitOwners) claim =>
      let (w, d) := k.1.declareWire i claim.1 claim.2.1.width claim.2.2
      (d, k.2.claim claim.2.1 w)) (b.design, owners)
    (b.calls (claims.map (Claim.call i))).design = r.1 ∧
      r.2.Follow (past ++ claims) i (b.calls (claims.map (Claim.call i))) := by
  induction claims generalizing past owners b with
  | nil => exact ⟨rfl, by rwa [List.append_nil]⟩
  | cons claim claims ih =>
    rw [List.append_cons]
    exact ih (h.claim claim)

end BitOwners

structure PlannedModule where
  name : String
  contents : ModuleDocument
  owners : BitOwners

namespace PlannedModule
open Construction

def marks (top : Option String) (p : PlannedModule) (i : Nat) : List BuildCall :=
  if top = some p.name then [.top i] else []

def claimCalls (p : PlannedModule) (i : Nat) : List BuildCall :=
  p.contents.claims.map (Claim.call i)

def cellCall (p : PlannedModule) (i : Nat) (c : String × CellDocument) : BuildCall :=
  .cell i c.1 c.2.kind (c.2.calls p.owners)

def calls (top : Option String) (p : PlannedModule) (i : Nat) : List BuildCall :=
  p.marks top i ++ (p.claimCalls i ++ p.contents.cells.map (p.cellCall i))

variable {top : Option String} {p : PlannedModule} {i : Nat} {b : Construction}

theorem cell?_calls (j : Nat) : (p.calls top i).filterMap (·.cell? j) =
    if i = j then p.contents.cells.map fun c => .ofCalls c.1 c.2.kind (c.2.calls p.owners)
    else [] := by
  have hmarks : (p.marks top i).filterMap (·.cell? j) = [] := by
    unfold marks
    split <;> rfl
  have hclaims : (p.claimCalls i).filterMap (·.cell? j) = [] := by
    rw [claimCalls, List.filterMap_map]
    exact List.filterMap_eq_nil_iff.mpr fun _ _ => rfl
  rw [calls, List.filterMap_append, List.filterMap_append, hmarks, hclaims, List.filterMap_map,
    List.nil_append, List.nil_append]
  split
  · rename_i hij
    rw [← List.filterMap_eq_map]
    exact List.filterMap_congr fun c _ => if_pos hij
  · rename_i hij
    exact List.filterMap_eq_nil_iff.mpr fun c _ => if_neg hij

theorem owns_cellCall (h : p.owners.Follow p.contents.claims i b) (c : String × CellDocument) :
    b.Owns (p.cellCall i c) := by
  intro v hv
  obtain ⟨w, hw, rfl⟩ := List.mem_map.mp hv
  obtain ⟨call, hcall, hwire⟩ := List.mem_filterMap.mp hw
  obtain hparam | hconnect := List.mem_append.mp hcall
  · obtain ⟨e, -, rfl⟩ := List.mem_map.mp hparam
    cases hwire
  · obtain ⟨e, -, hcall⟩ := List.mem_flatMap.mp hconnect
    obtain ⟨w', hw', rfl⟩ := List.mem_map.mp hcall
    obtain rfl : w' = w := Option.some.inj hwire
    rw [BitOwners.wires_eq, List.mem_eraseDups] at hw'
    obtain ⟨bit, -, howner⟩ := List.mem_filterMap.mp hw'
    cases hclaim : p.contents.claims.find? (Claim.lists · bit) with
    | none => cases (h.unclaimed bit hclaim).symm.trans howner
    | some claim =>
      obtain ⟨w'', howner', hissued⟩ := h.claimed bit claim hclaim
      obtain rfl : w'' = w' := Option.some.inj (howner'.symm.trans howner)
      exact ⟨_, hissued, rfl⟩

theorem admits_calls (hi : (p.name, i) ∈ b.modules)
    (h : p.owners.Follow p.contents.claims i ((b.calls (p.marks top i)).calls (p.claimCalls i))) :
    Throughout Admits b (p.calls top i) := by
  have hknown : ∀ cs, ∃ e ∈ (b.calls cs).modules, e.2 = i := fun cs =>
    ⟨_, b.modules_subset_calls cs hi, rfl⟩
  have hadmits : ∀ {cs c}, c.module? = some i → (b.calls cs).Owns c → (b.calls cs).Admits c :=
    fun {cs c} hmodule howns => howns.knows fun j hj => by
      obtain rfl : i = j := Option.some.inj (hmodule.symm.trans hj)
      exact hknown cs
  rw [calls, throughout_append, throughout_append, ← calls_append]
  refine ⟨.of_forall .call fun c hc => ?_, .of_forall .call fun c hc => ?_,
    .of_forall .call fun c hc => ?_⟩
  · unfold marks at hc
    split at hc
    · obtain rfl := List.mem_singleton.mp hc
      exact @hadmits [] _ rfl fun _ hv => by cases hv
    · cases hc
  · obtain ⟨claim, -, rfl⟩ := List.mem_map.mp hc
    exact hadmits rfl fun _ hv => by cases hv
  · obtain ⟨cell, -, rfl⟩ := List.mem_map.mp hc
    exact hadmits rfl (calls_append ▸ owns_cellCall h cell)

theorem design_cellCalls (cells : List (String × CellDocument)) :
    (b.calls (cells.map (p.cellCall i))).design =
      cells.foldl (fun d (name, c) => d.placeCell i (c.toCell p.owners name)) b.design := by
  induction cells generalizing b with
  | nil => rfl
  | cons c cells ih =>
    obtain ⟨name, c⟩ := c
    rw [List.foldl_cons]
    dsimp only
    rw [CellDocument.toCell_eq]
    exact ih

end PlannedModule

theorem Design.addContents_calls (b : Construction) (top : Option String) {name : String}
    {i : Nat} (m : ModuleDocument) (hi : (name, i) ∈ b.modules) :
    ∃ p : PlannedModule, p.name = name ∧ p.contents = m ∧
      (b.calls (p.calls top i)).design =
        (if top = some name then b.design.markTop i else b.design).addContents i m ∧
      Construction.Throughout Construction.Admits b (p.calls top i) ∧
      p.owners.Follow m.claims i (b.calls (p.calls top i)) := by
  have hmarked : ∀ owners, (b.calls (PlannedModule.marks top ⟨name, m, owners⟩ i)).design =
      if top = some name then b.design.markTop i else b.design := fun owners => by
    unfold PlannedModule.marks
    split <;> rfl
  obtain ⟨hclaimed, hfollow⟩ := (BitOwners.Follow.start i
    (b.calls (PlannedModule.marks top ⟨name, m, []⟩ i))).claims m.claims
  rw [hmarked] at hclaimed hfollow
  refine ⟨⟨name, m, _⟩, rfl, rfl, ?_, PlannedModule.admits_calls hi hfollow, ?_⟩
  · rw [PlannedModule.calls, Construction.calls_append, Construction.calls_append,
      PlannedModule.design_cellCalls]
    exact congrArg (List.foldl _ · m.cells) hclaimed
  · rw [PlannedModule.calls, Construction.calls_append, Construction.calls_append]
    exact hfollow.calls _

namespace NetlistDocument
open Construction

def contentsCalls (top : Option String) (plan : List PlannedModule) (n : Nat) : List BuildCall :=
  (plan.zipIdx n).flatMap fun e => e.1.calls top e.2

def planCalls (top : Option String) (plan : List PlannedModule) : List BuildCall :=
  plan.map (fun p => .module p.name) ++ contentsCalls top plan 0

theorem exists_plan (top : Option String) (ms : List (String × ModuleDocument)) (n : Nat)
    (b : Construction) (hids : ∀ e ∈ ms.zipIdx n, (e.1.1, e.2) ∈ b.modules) :
    ∃ plan : List PlannedModule, plan.map (fun p => (p.name, p.contents)) = ms ∧
      (b.calls (contentsCalls top plan n)).design = (ms.zipIdx n).foldl (fun d ((name, m), i) =>
        (if top = some name then d.markTop i else d).addContents i m) b.design ∧
      Throughout Admits b (contentsCalls top plan n) ∧
      ∀ e ∈ plan.zipIdx n, e.1.owners.Follow e.1.contents.claims e.2
        (b.calls (contentsCalls top plan n)) := by
  induction ms generalizing n b with
  | nil => exact ⟨[], rfl, rfl, trivial, fun e he => by cases he⟩
  | cons m ms ih =>
    obtain ⟨name, m⟩ := m
    rw [List.zipIdx_cons, List.forall_mem_cons] at hids
    obtain ⟨p, rfl, rfl, hdesign, hadmits, hfollow⟩ := Design.addContents_calls b top m hids.1
    obtain ⟨plan, rfl, hdesigns, hadmitted, hfollows⟩ := ih (n + 1) (b.calls (p.calls top n))
      fun e he => b.modules_subset_calls _ (hids.2 e he)
    refine ⟨p :: plan, rfl, ?_, ?_, ?_⟩
    · rw [contentsCalls, List.zipIdx_cons, List.flatMap_cons, calls_append]
      exact hdesigns.trans (by rw [hdesign]; rfl)
    · rw [contentsCalls, List.zipIdx_cons, List.flatMap_cons, throughout_append]
      exact ⟨hadmits, hadmitted⟩
    · rw [contentsCalls, List.zipIdx_cons, List.flatMap_cons, calls_append]
      exact List.forall_mem_cons.mpr ⟨hfollow.calls _, hfollows⟩

theorem calls_module {names : List String} {b : Construction} (hindexed : b.design.Indexed)
    (h : (b.design.modules.map (·.name) ++ names).Nodup) :
    (b.calls (names.map .module)).modules =
        b.modules ++ names.zipIdx b.design.modules.length ∧
      (b.calls (names.map .module)).design =
        names.foldl (fun d name => (d.declareModule name).2) b.design := by
  induction names generalizing b with
  | nil => exact ⟨(List.append_nil _).symm, rfl⟩
  | cons name names ih =>
    have hnew : b.design.moduleIndex? name = none := by
      refine Option.eq_none_iff_forall_ne_some.mpr fun i hi => ?_
      obtain ⟨m, hm, hname⟩ := hindexed.moduleIndex?_eq_some_iff.mp hi
      exact (List.nodup_append.mp h).2.2 _ (List.mem_map_of_mem (List.mem_of_getElem? hm)) name
        List.mem_cons_self hname
    have hcall : (b.call (.module name)).design.modules =
          b.design.modules ++ [{ id := b.design.modules.length, name }] ∧
        (b.call (.module name)).modules = b.modules ++ [(name, b.design.modules.length)] := by
      simp only [Construction.call, Design.declareModule, hnew, and_self]
    have hnext : ((b.call (.module name)).design.modules.map (·.name) ++ names).Nodup := by
      rw [hcall.1, List.map_append, List.append_assoc]
      exact h
    obtain ⟨hmodules, hdesign⟩ := ih (hindexed.declareModule name) hnext
    refine ⟨hmodules.trans ?_, hdesign⟩
    rw [hcall.1, hcall.2, List.zipIdx_cons, List.append_assoc, List.length_append]
    rfl

theorem toDesign_calls {doc : NetlistDocument} {d : Design}
    (hnodup : (doc.modules.map (·.1)).Nodup) (h : doc.toDesign = .ok d) : ∃ top plan,
      plan.map (fun p : PlannedModule => (p.name, p.contents)) = doc.modules ∧
      (calls {} (planCalls top plan)).design = d ∧
      Throughout Admits {} (planCalls top plan) ∧
      ∀ e ∈ plan.zipIdx, (e.1.name, e.2) ∈ (calls {} (planCalls top plan)).modules ∧
        e.1.owners.Follow e.1.contents.claims e.2 (calls {} (planCalls top plan)) := by
  unfold toDesign at h
  cases htop : doc.topName? with
  | error fault =>
    rw [htop] at h
    cases h
  | ok top =>
    rw [htop] at h
    obtain rfl := Except.ok.inj h
    let names := doc.modules.map (·.1)
    have hfresh : ((({} : Construction).design.modules.map (·.name)) ++ names).Nodup := hnodup
    obtain ⟨hmodules, hdeclared⟩ := calls_module .empty hfresh
    have hids : ∀ e ∈ doc.modules.zipIdx,
        (e.1.1, e.2) ∈ (calls {} (names.map .module)).modules := fun e he => by
      rw [hmodules, List.zipIdx_map]
      exact List.mem_map_of_mem he
    obtain ⟨plan, hplan, hdesign, hadmits, hfollows⟩ := exists_plan top doc.modules 0 _ hids
    have hcalls : planCalls top plan = names.map .module ++ contentsCalls top plan 0 := by
      have hnames : names = plan.map (·.name) :=
        (congrArg (List.map (·.1)) hplan).symm.trans List.map_map
      rw [planCalls, hnames, List.map_map]
      rfl
    have hstart : ∀ c ∈ names.map BuildCall.module, Admits {} c := fun c hc => by
      obtain ⟨name, -, rfl⟩ := List.mem_map.mp hc
      exact Owns.knows (fun _ hv => by cases hv) fun _ hi => by cases hi
    refine ⟨top, plan, hplan, ?_, ?_, fun e he => ?_⟩
    · rw [hcalls, calls_append, hdesign, hdeclared, List.foldl_map]
    · rw [hcalls, throughout_append]
      exact ⟨.of_forall .call hstart, hadmits⟩
    · rw [hcalls, calls_append]
      refine ⟨modules_subset_calls _ _ (hids ((e.1.name, e.1.contents), e.2) ?_), hfollows e he⟩
      rw [← hplan, List.zipIdx_map]
      exact List.mem_map_of_mem he

end NetlistDocument

end ClockTree
