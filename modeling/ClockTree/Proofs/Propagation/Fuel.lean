import ClockTree.Proofs.Propagation.Walk

/-!
# The fuel of a walk

Each wire joins the queue of a walk at most once after the start, when it is assigned. Wires that
are assigned belong to the design, so a pass never runs out of fuel before its queue is empty.
-/
namespace ClockTree

theorem Design.mem_wireRefs {d : Design} {w : WireKey} : w ∈ d.wireRefs ↔ (d.wire? w).isSome := by
  obtain ⟨i, j⟩ := w
  simp only [Design.wireRefs, Design.wire?, Design.module?, List.mem_flatMap, Prod.exists,
    List.mk_mem_zipIdx_iff_getElem?, List.mem_map, List.mem_range, WireKey.mk.injEq]
  constructor
  · intro found
    obtain ⟨m, i', hm, j', hj, rfl, rfl⟩ := found
    simp [hm, hj]
  · intro h
    cases hm : d.modules[i]? with
    | none => simp [hm] at h
    | some m => exact ⟨m, i, hm, j, by simpa [hm] using h, rfl, rfl⟩

namespace Walk

structure Fits (d : Design) (n : Nat) (k : Walk) : Prop where
  sound : k.registry.Sound d
  nodup : k.assigned.Nodup
  inside : k.assigned ⊆ d.wireRefs
  enough : k.queue.length + d.wireRefs.length ≤ n + k.assigned.length

variable {d : Design} {n : Nat} {k : Walk}

theorem Fits.start {r : Registry} (h : r.Sound d) :
    Fits d (r.wires.length + d.wireRefs.length) (.start r) where
  sound := h
  nodup := List.nodup_nil
  inside := List.nil_subset _
  enough := by simp [Walk.start]

theorem Answer.fits {dep : Departure} {target : WireKey} {k' : Walk} (h : Fits d n k)
    (ha : Answer d dep k target k') : Fits d n k' := by
  obtain ⟨hsound, hnodup, hinside, henough⟩ := h
  cases ha with
  | assigned => exact ⟨hsound, hnodup, hinside, henough⟩
  | foreign => exact ⟨hsound, hnodup, hinside, henough⟩
  | settled c hnew hc hsettles =>
    obtain ⟨hmem, hw⟩ := hsound.coherent.carrier?_eq_some_iff.mp hc
    have htarget := Design.mem_wireRefs.mpr (hsound.inside c hmem target hw)
    refine ⟨hsound, List.nodup_cons.mpr ⟨hnew, hnodup⟩,
      List.cons_subset.mpr ⟨htarget, hinside⟩, ?_⟩
    simp only [List.length_cons]
    omega
  | derived path t log hnew hstale hpath hadd ht hsound' hlog =>
    have htarget := Design.mem_wireRefs.mpr (wire?_of_path hpath)
    refine ⟨hsound', List.nodup_cons.mpr ⟨hnew, hnodup⟩,
      List.cons_subset.mpr ⟨htarget, hinside⟩, ?_⟩
    simp only [List.length_cons, List.length_append, List.length_nil]
    omega

theorem visitWire_fits {rules : RuleSet} {w : WireKey} {queue : List WireKey} (h : Fits d (n + 1) k)
    (hqueue : k.queue = w :: queue) : Fits d n (visitWire rules d d.fanout { k with queue } w) := by
  have hpop : Fits d n { k with queue } := by
    obtain ⟨hsound, hnodup, hinside, henough⟩ := h
    rw [hqueue, List.length_cons] at henough
    exact ⟨hsound, hnodup, hinside, by show queue.length + _ ≤ n + k.assigned.length; omega⟩
  exact visitWire_induction hpop.sound
    (fun _ _ _ hk => ⟨hk.sound, hk.nodup, hk.inside, hk.enough⟩)
    (fun _ _ _ _ _ _ _ _ ha hk => ha.fits hk) hpop

theorem run_exhausts {rules : RuleSet} (h : Fits d n k) : (run rules d d.fanout n k).queue = [] := by
  induction n generalizing k with
  | zero =>
    -- no more wires are assigned than the design has
    have hlength := h.nodup.length_le_of_subset h.inside
    have henough := h.enough
    exact List.eq_nil_of_length_eq_zero (by show k.queue.length = 0; omega)
  | succ n ih =>
    unfold run
    cases hqueue : k.queue with
    | nil => exact hqueue
    | cons w queue => exact ih (visitWire_fits h hqueue)

end Walk

theorem Pass.walk_exhausts (p : Pass) {d : Design} {r : Registry} (h : r.Sound d) :
    (p.walk d r).queue = [] :=
  Walk.run_exhausts (.start h)

end ClockTree
