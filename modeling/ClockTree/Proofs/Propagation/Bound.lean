import ClockTree.Proofs.Propagation.Declarations
import ClockTree.Proofs.Propagation.Fuel
import ClockTree.Proofs.Propagation.Provenance

/-!
# The length of a pass

The queue of a pass holds the wires that carry a clock at its start and then the wires of the clocks
that it derives, in the order of their declarations. A wire is assigned when it gets a derived clock,
so no wire joins the queue twice, and no later declaration takes the wire or the name of the clock
that was derived for it.
-/
namespace ClockTree

theorem Registry.Coherent.wires_nodup {r : Registry} (h : r.Coherent) : r.wires.Nodup :=
  List.nodup_flatMap.mpr ⟨h.nodup, h.wires_disjoint⟩

namespace Walk
open Registry (Leads)
variable {d : Design} {rules : RuleSet} {r₀ : Registry} {k k' : Walk}
  {done : List ClockDeclaration}

theorem visitWire_queue (h : k.registry.Sound d) (w : WireKey) :
    (visitWire rules d d.fanout k w).queue =
      k.queue ++ (wireDeclares rules d k w).flatMap (·.wires) := by
  have hstart : k.registry.Sound d ∧
      k.queue = k.queue ++ ([] : List ClockDeclaration).flatMap (·.wires) := ⟨h, by simp⟩
  refine (visitWire_declares (I := fun k' done => k'.registry.Sound d ∧
    k'.queue = k.queue ++ done.flatMap (·.wires)) (fun source _ => ⟨fun _ _ _ _ hk => hk,
      fun k' done o r ho hk => ?_⟩) hstart).2
  have ha := offer_answer hk.1 ho r
  refine ⟨ha.sound hk.1, ?_⟩
  obtain hno | ⟨path, hyes⟩ := ha.declines_or_derives
  · rw [hno.queue, hno.declares, List.append_nil, hk.2]
  · rw [hyes.queue, hyes.declares, hk.2, List.flatMap_append, List.append_assoc]
    rfl

theorem run_queue (p : Pass) (n : Nat) (h : k.registry.Sound d) :
    (visits p d n k).map (·.wire) ++ (run p.rules d d.fanout n k).queue =
      k.queue ++ (runDeclares p.rules d n k).flatMap (·.wires) := by
  induction n generalizing k with
  | zero => simp [visits, run, runDeclares]
  | succ n ih =>
    unfold visits run runDeclares
    cases hqueue : k.queue with
    | nil => simp [hqueue]
    | cons w queue =>
      have hpop : ({ k with queue } : Walk).registry.Sound d := h
      have hvisit : (visitWire p.rules d d.fanout { k with queue } w).registry.Sound d :=
        visitWire_sound hpop w
      have hrest := ih hvisit
      rw [visitWire_queue hpop w] at hrest
      simp only [List.map_cons, List.cons_append, List.flatMap_append, ← List.append_assoc] at hrest ⊢
      rw [hrest]

theorem run_of_exhausted (n : Nat) (h : k.queue = []) : run rules d d.fanout n k = k := by
  cases n with
  | zero => rfl
  | succ n => simp [run, h]

theorem run_add (m n : Nat) (k : Walk) :
    run rules d d.fanout (m + n) k = run rules d d.fanout n (run rules d d.fanout m k) := by
  induction m generalizing k with
  | zero => rw [Nat.zero_add, run]
  | succ m ih =>
    rw [Nat.succ_add, run, run]
    cases hqueue : k.queue with
    | nil => exact (run_of_exhausted n hqueue).symm
    | cons w queue => exact ih _

/-- What is known of a walk that has made the declarations `done` since the registry was `r₀`: each
is of a clock on one wire, no wire occurs twice, and each clock stays as it was declared. -/
structure Tally (d : Design) (r₀ : Registry) (k : Walk) (done : List ClockDeclaration) : Prop where
  sound : k.registry.Sound d
  leads : r₀.Leads d done k.registry
  derived : k.derived = done.length
  single : ∀ spec ∈ done, ∃ w, spec.wires = [w]
  nodup : (done.flatMap (·.wires)).Nodup
  inside : done.flatMap (·.wires) ⊆ d.wireRefs
  assigned : done.flatMap (·.wires) ⊆ k.assigned
  kept : ∀ specs, specs <+: done → ∃ q, r₀.Leads d specs q ∧ q.Sound d ∧
    ∀ spec ∈ specs, spec.clock ∈ q.clocks

theorem Tally.start {r : Registry} (h : r.Sound d) : Tally d r (.start r) [] where
  sound := h
  leads := rfl
  derived := rfl
  single := List.forall_mem_nil _
  nodup := List.nodup_nil
  inside := List.nil_subset _
  assigned := List.nil_subset _
  kept specs hpre := by
    obtain rfl := List.prefix_nil.mp hpre
    exact ⟨r, rfl, h, List.forall_mem_nil _⟩

theorem Tally.registered (h : Tally d r₀ k done) : ∀ spec ∈ done, spec.clock ∈ k.registry.clocks := by
  obtain ⟨q, hq, -, hclocks⟩ := h.kept done (List.prefix_refl done)
  obtain rfl : k.registry = q := Except.ok.inj (h.leads.symm.trans hq)
  exact hclocks

theorem Tally.off_target (h : Tally d r₀ k done) {target : WireKey} (hnew : target ∉ k.assigned)
    {spec : ClockDeclaration} (hspec : spec ∈ done) : target ∉ spec.wires :=
  fun hw => hnew (h.assigned (List.mem_flatMap.mpr ⟨spec, hspec, hw⟩))

theorem Tally.outlasts (h : Tally d r₀ k done) {dep : Departure} {target : WireKey} {path : String}
    (hyes : Derives d dep k target k' path) :
    ∀ spec ∈ done, spec.clock ∈ k'.registry.clocks := by
  intro spec hspec
  obtain ⟨t, hregistry, ht⟩ := hyes.completes
  have hold := h.registered spec hspec
  obtain ⟨w, hw⟩ := h.single spec hspec
  have hwires : spec.clock.wires = [w] := by
    rw [ClockDeclaration.clock, hw]
    rfl
  have hne : target ≠ w := by
    have hoff := h.off_target hyes.fresh hspec
    rw [hw] at hoff
    exact fun hsame => hoff (List.mem_singleton.mpr hsame)
  rw [hregistry]
  refine ht.mem_of_disjoint hold (fun hname => ?_) ?_
    (hwires ▸ List.cons_ne_nil w [])
  · -- the name would be that of a clock on the target
    have hon := Registry.wires_of_freeName h.sound.coherent hold hname
    rw [hwires] at hon
    exact hne (List.singleton_inj.mp hon).symm
  · rw [hwires]
    exact List.disjoint_singleton.mpr fun hsame => hne (List.mem_singleton.mp hsame)

theorem Tally.declines (h : Tally d r₀ k done) {dep : Departure} {target : WireKey}
    (hno : Declines d dep k target k') : Tally d r₀ k' (done ++ declares d dep k target) := by
  rw [hno.declares, List.append_nil]
  exact ⟨hno.registry ▸ h.sound, hno.registry ▸ h.leads, hno.derived.trans h.derived, h.single,
    h.nodup, h.inside, List.Subset.trans h.assigned hno.assigned, h.kept⟩

theorem Tally.derives (h : Tally d r₀ k done) {dep : Departure} {target : WireKey} {path : String}
    (hyes : Derives d dep k target k' path) (hsound : k'.registry.Sound d) :
    Tally d r₀ k' (done ++ declares d dep k target) := by
  have hlast := h.leads.append hyes.leads
  have hold := h.outlasts hyes
  obtain ⟨t, hregistry, ht⟩ := hyes.completes
  rw [hyes.declares] at hlast ⊢
  generalize hspec : ClockDeclaration.generated (k.registry.freeName path target) [target] dep.wave
    dep.source = spec at hlast ⊢
  have hwires : spec.wires = [target] := hspec ▸ rfl
  have hclock : spec.clock ∈ k'.registry.clocks := by
    rw [hregistry, ← hspec]
    exact ht.mem_new (List.cons_ne_nil _ _)
  have hall : ∀ s ∈ done ++ [spec], s.clock ∈ k'.registry.clocks :=
    List.forall_mem_append.mpr ⟨hold, List.forall_mem_singleton.mpr hclock⟩
  have htargets : (done ++ [spec]).flatMap (·.wires) = done.flatMap (·.wires) ++ [target] := by
    simp [hwires]
  refine ⟨hsound, hlast, by rw [hyes.derived, h.derived, List.length_append]; rfl,
    List.forall_mem_append.mpr ⟨h.single, List.forall_mem_singleton.mpr ⟨target, hwires⟩⟩,
    ?_, ?_, ?_, fun specs hpre => ?_⟩
  · rw [htargets, List.nodup_append_comm]
    exact List.nodup_cons.mpr ⟨fun hw => hyes.fresh (h.assigned hw), h.nodup⟩
  · rw [htargets]
    exact List.append_subset.mpr ⟨h.inside, List.cons_subset.mpr
      ⟨Design.mem_wireRefs.mpr (wire?_of_path hyes.address), List.nil_subset _⟩⟩
  · rw [htargets, hyes.assigned]
    exact List.append_subset.mpr ⟨List.subset_cons_of_subset _ h.assigned,
      List.cons_subset.mpr ⟨List.mem_cons_self, List.nil_subset _⟩⟩
  · obtain rfl | hbefore := List.prefix_concat_iff.mp hpre
    · exact ⟨k'.registry, hlast, hsound, hall⟩
    · exact h.kept specs hbefore

theorem Tally.length_targets (h : Tally d r₀ k done) :
    (done.flatMap (·.wires)).length = k.derived := by
  have hone : ∀ spec ∈ done, spec.wires.length = 1 := fun spec hspec => by
    obtain ⟨w, hw⟩ := h.single spec hspec
    rw [hw, List.length_singleton]
  rw [List.length_flatMap, List.map_congr_left hone, List.map_const', List.sum_replicate_nat,
    Nat.mul_one, h.derived]

theorem Tally.carries (h : Tally d r₀ k done) {specs : List ClockDeclaration}
    (hpre : specs <+: done) : ∃ q, r₀.Leads d specs q ∧
      ∀ spec ∈ specs, ∃ w, spec.wires = [w] ∧ q.carrier? w = some spec.clock := by
  obtain ⟨q, hleads, hsound, hclocks⟩ := h.kept specs hpre
  refine ⟨q, hleads, fun spec hspec => ?_⟩
  obtain ⟨w, hw⟩ := h.single spec (hpre.subset hspec)
  have hmem : w ∈ spec.clock.wires := List.mem_eraseDups.mpr (hw ▸ List.mem_singleton_self w)
  exact ⟨w, hw, hsound.coherent.carrier?_eq_some_iff.mpr ⟨hclocks spec hspec, hmem⟩⟩

theorem Tally.with (h : Tally d r₀ k done) (queue : List WireKey) (log : List Diagnostic) :
    Tally d r₀ { k with queue, log } done :=
  ⟨h.sound, h.leads, h.derived, h.single, h.nodup, h.inside, h.assigned, h.kept⟩

theorem visitWire_tally (h : Tally d r₀ k done) (w : WireKey) :
    Tally d r₀ (visitWire rules d d.fanout k w) (done ++ wireDeclares rules d k w) := by
  refine visitWire_declares (I := Tally d r₀)
    (fun source _ => ⟨fun k' _ _ _ hk => hk.with k'.queue _, fun k' done o r ho hk => ?_⟩) h
  have ha := offer_answer hk.sound ho r
  obtain hno | ⟨path, hyes⟩ := ha.declines_or_derives
  · exact hk.declines hno
  · exact hk.derives hyes (ha.sound hk.sound)

theorem run_tally (n : Nat) (h : Tally d r₀ k done) :
    Tally d r₀ (run rules d d.fanout n k) (done ++ runDeclares rules d n k) :=
  run_declares (I := Tally d r₀)
    (fun k' _ w queue _ hk => visitWire_tally (hk.with queue k'.log) w) n h

end Walk

theorem Pass.walk_derived (p : Pass) {d : Design} {r : Registry} (h : r.Sound d) :
    (p.walk d r).derived = (p.declares d r).length := by
  have htally : Walk.Tally d r (p.walk d r) (p.declares d r) :=
    Walk.run_tally _ (Walk.Tally.start h)
  exact htally.derived

/-- A pass visits the wires that carry a clock at its start and those to which it gives one, in this
order and each of the latter once. It is over after as many visits, and until then every wire keeps
the clock that was derived for it. -/
theorem Registry.history_walk_bounded (d : Design) (ops : List Registry.Operation) (p : Pass) :
    let r := history d ops
    (∀ n, let k := Walk.run p.rules d d.fanout n (.start r)
      let visited := (Walk.visits p d n (.start r)).map (·.wire)
      let appended := (Walk.runDeclares p.rules d n (.start r)).flatMap (·.wires)
      visited ++ k.queue = r.wires ++ appended ∧ appended.Nodup ∧ appended ⊆ d.wireRefs ∧
        appended.length = k.derived ∧ visited.length ≤ r.wires.length + k.derived ∧
        k.derived ≤ d.wireRefs.length) ∧
      r.wires.Nodup ∧ (p.walk d r).queue = [] ∧
      (∀ n, r.wires.length + d.wireRefs.length ≤ n →
        Walk.run p.rules d d.fanout n (.start r) = p.walk d r) ∧
      r.Leads d (p.declares d r) (p.walk d r).registry ∧
      ∀ done, done <+: p.declares d r → ∃ q, r.Leads d done q ∧
        ∀ spec ∈ done, ∃ w, spec.wires = [w] ∧ q.carrier? w = some spec.clock := by
  have hsound := sound_history d ops
  dsimp only
  generalize history d ops = r at hsound
  have hexhausts := p.walk_exhausts hsound
  refine ⟨fun n => ?_, hsound.coherent.wires_nodup, hexhausts, fun n hn => ?_,
    p.declares_leads hsound, fun done hpre => ?_⟩
  · have htally : Walk.Tally d r (Walk.run p.rules d d.fanout n (.start r))
        (Walk.runDeclares p.rules d n (.start r)) := Walk.run_tally n (Walk.Tally.start hsound)
    have hqueue := Walk.run_queue (k := .start r) p n hsound
    have hcount := htally.length_targets
    have hlength := congrArg List.length hqueue
    have hdesign := htally.nodup.length_le_of_subset htally.inside
    rw [List.length_append, List.length_append, hcount] at hlength
    refine ⟨hqueue, htally.nodup, htally.inside, hcount, ?_, hcount ▸ hdesign⟩
    change _ = r.wires.length + _ at hlength
    omega
  · obtain ⟨m, rfl⟩ := Nat.exists_eq_add_of_le hn
    rw [Walk.run_add]
    exact Walk.run_of_exhausted m hexhausts
  · exact (Walk.run_tally _ (Walk.Tally.start hsound)).carries hpre

end ClockTree
