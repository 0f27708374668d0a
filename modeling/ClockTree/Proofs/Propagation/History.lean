import ClockTree.Proofs.Propagation.Walk

/-!
# Histories of a registry

A registry that starts empty stays sound whatever is declared, cleared and propagated. A propagation
is a sequence of registrations all of which succeed, one for each clock that it derives.
-/
namespace ClockTree
namespace Registry

def register (d : Design) (r : Registry) (spec : ClockDeclaration) :
    Except DeclarationFault Registry :=
  (r.add d spec).map fun (_, r, _) => r

inductive Operation where
  | declare (spec : ClockDeclaration)
  | clear
  | propagate (e : Engine)

/-- A declaration that is refused and a propagation that cannot start change nothing. -/
def Operation.apply (d : Design) (r : Registry) : Operation → Registry
  | .declare spec => match r.register d spec with
    | .error _ => r
    | .ok r => r
  | .clear => {}
  | .propagate e => match e.run d r with
    | .error _ => r
    | .ok (_, r, _) => r

def history (d : Design) (ops : List Operation) : Registry := ops.foldl (Operation.apply d) {}

theorem Sound.register {d : Design} {r r' : Registry} {spec : ClockDeclaration} (h : r.Sound d)
    (hr : r.register d spec = .ok r') : r'.Sound d := by
  unfold Registry.register at hr
  cases hadd : r.add d spec with
  | error fault => simp [hadd, Except.map] at hr
  | ok out =>
    obtain ⟨clock, r'', log⟩ := out
    simp only [hadd, Except.map, Except.ok.injEq] at hr
    subst hr
    exact h.of_add hadd

theorem Operation.apply_sound {d : Design} {r : Registry} (h : r.Sound d) (op : Operation) :
    (op.apply d r).Sound d := by
  cases op with
  | declare spec =>
    simp only [apply]
    split
    · exact h
    · rename_i hr
      exact h.register hr
  | clear => exact Sound.empty
  | propagate e =>
    simp only [apply]
    split
    · exact h
    · rename_i hrun
      exact Engine.run_sound h hrun

def Follows (d : Design) (r r' : Registry) : Prop :=
  ∃ specs : List ClockDeclaration, specs.foldlM (register d) r = .ok r'

theorem Follows.add {d : Design} {r r' r'' : Registry} {spec : ClockDeclaration} {clock : Clock}
    {log : List Diagnostic} (h : Follows d r r') (hadd : r'.add d spec = .ok (clock, r'', log)) :
    Follows d r r'' := by
  obtain ⟨specs, hspecs⟩ := h
  refine ⟨specs ++ [spec], ?_⟩
  rw [List.foldlM_append, hspecs]
  change (List.foldlM (register d) r' [spec]) = .ok r''
  simp [register, hadd, Except.map]

end Registry

namespace Walk
variable {d : Design} {r : Registry}

theorem Answer.follows {dep : Departure} {k k' : Walk} {target : WireKey}
    (h : r.Follows d k.registry) (ha : Answer d dep k target k') : r.Follows d k'.registry := by
  cases ha with
  | assigned => exact h
  | settled => exact h
  | foreign => exact h
  | derived path t log hnew hstale hpath hadd ht hsound hlog =>
    obtain ⟨notes, hadd⟩ := hadd
    exact h.add hadd

theorem visitWire_follows {rules : RuleSet} {k : Walk} (hsound : k.registry.Sound d)
    (h : r.Follows d k.registry) (w : WireKey) :
    r.Follows d (visitWire rules d d.fanout k w).registry :=
  visitWire_induction (P := fun k => r.Follows d k.registry) hsound (fun _ _ _ hk => hk)
    (fun _ _ _ _ _ _ _ _ ha hk => ha.follows hk) h

end Walk

namespace Registry

theorem Operation.propagate_follows {d : Design} {r : Registry} (h : r.Sound d) (e : Engine) :
    r.Follows d ((Operation.propagate e).apply d r) := by
  simp only [apply]
  split
  · exact ⟨[], rfl⟩
  · rename_i hrun
    exact (Engine.run_induction (Q := fun r' => r'.Sound d ∧ r.Follows d r')
      (fun _ _ _ w hk => ⟨Walk.visitWire_sound hk.1 w, Walk.visitWire_follows hk.1 hk.2 w⟩)
      ⟨h, [], rfl⟩ hrun).2

theorem sound_history (d : Design) (ops : List Operation) : (history d ops).Sound d :=
  List.foldlRecOn (motive := Sound d) _ _ Sound.empty fun _ h op _ => op.apply_sound h

theorem history_sound (d : Design) (ops : List Operation) :
    (history d ops).Sound d ∧
      (∀ spec name, (history d ops).add d spec ≠ .error (.misplaced name)) ∧
      ∀ e, (history d ops).Follows d (history d (ops ++ [.propagate e])) := by
  have hsound := sound_history d ops
  refine ⟨hsound, hsound.add_ne_misplaced, fun e => ?_⟩
  rw [show history d (ops ++ [.propagate e]) = (Operation.propagate e).apply d (history d ops) from
    List.foldl_append]
  exact Operation.propagate_follows hsound e

end Registry
end ClockTree
