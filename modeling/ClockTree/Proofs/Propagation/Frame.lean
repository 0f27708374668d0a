import ClockTree.Proofs.Propagation.History

/-!
# What a run leaves alone

A wire on which an explicit clock stands is settled, and a derived clock takes no name that stands on
another wire. So a derived clock replaces no explicit clock and takes no wire from one, and a wire
that loses its clock in a run gets another.
-/
namespace ClockTree

theorem filter_map_of_fixed {α : Type} {p : α → Bool} {f : α → α} {l : List α}
    (hsame : ∀ a ∈ l, p (f a) = p a) (hfixed : ∀ a ∈ l, p a → f a = a) :
    (l.map f).filter p = l.filter p := by
  rw [List.filter_map, show l.filter (p ∘ f) = l.filter p from List.filter_congr hsame]
  refine (List.map_congr_left fun a ha => ?_).trans (List.map_id' _)
  obtain ⟨ha, hp⟩ := List.mem_filter.mp ha
  exact hfixed a ha hp

namespace Registry

def explicitClocks (r : Registry) : List Clock := r.clocks.filter (!·.isGenerated)

variable {d : Design} {r : Registry} {c : Clock} {t : Transfer}

theorem Transfer.Completes.explicitClocks (ht : t.Completes r c) (h : r.Sound d)
    (hc : c.isGenerated)
    (hkept : ∀ b ∈ r.clocks, b.isGenerated = false → b.name ≠ c.name ∧ List.Disjoint b.wires c.wires) :
    t.registry.explicitClocks = r.explicitClocks := by
  have hfixed : ∀ b ∈ r.clocks, b.isGenerated = false → c.cede b = b := by
    intro b hb hexplicit
    obtain ⟨hname, hwires⟩ := hkept b hb hexplicit
    exact Clock.cede_of_disjoint hname hwires
  have hsame : ∀ b ∈ r.clocks, (c.cede b).isGenerated = b.isGenerated := by
    intro b hb
    cases hexplicit : b.isGenerated with
    | false => rw [hfixed b hb hexplicit, hexplicit]
    | true =>
      unfold Clock.cede Clock.after
      split
      · exact hc
      · exact hexplicit
  have hold : (r.clocks.map c.cede).filter (!·.isGenerated) = r.clocks.filter (!·.isGenerated) :=
    filter_map_of_fixed (fun b hb => by rw [hsame b hb])
      fun b hb hexplicit => hfixed b hb (by simpa using hexplicit)
  have hnew : (if r.clocks.any (·.name == c.name) then [] else [c]).filter (!·.isGenerated) =
      ([] : List Clock) := by
    split <;> simp [hc]
  unfold Registry.explicitClocks
  rw [ht.clocks, List.filter_comm, seated, List.filter_append, hold, hnew, List.append_nil,
    List.filter_eq_self]
  intro b hb
  simpa using h.wires_ne b (List.mem_of_mem_filter hb)

theorem Transfer.Completes.wires_subset (ht : t.Completes r c)
    (hkept : ∀ b ∈ r.clocks, b.name = c.name → b.wires ⊆ c.wires) :
    r.wires ⊆ t.registry.wires := by
  intro w hw
  obtain ⟨b, hb, hwb⟩ := List.mem_flatMap.mp hw
  rw [Registry.wires, List.mem_flatMap]
  by_cases hwc : w ∈ c.wires
  · exact ⟨c, ht.mem_new (List.ne_nil_of_mem hwc), hwc⟩
  · have hname : b.name ≠ c.name := fun hname => hwc (hkept b hb hname hwb)
    have hwafter : w ∈ (b.after c.name c.wires).wires :=
      Clock.mem_after_wires.mpr ⟨hwb, Or.inr hwc⟩
    exact ⟨_, ht.mem_clocks.mpr ⟨Or.inr ⟨b, hb, hname, rfl⟩, List.ne_nil_of_mem hwafter⟩, hwafter⟩

end Registry

namespace Walk
variable {d : Design} {dep : Departure} {k k' : Walk} {target : WireKey}

theorem Answer.wires_subset (h : k.registry.Sound d) (ha : Answer d dep k target k') :
    k.registry.wires ⊆ k'.registry.wires := by
  cases ha with
  | assigned => exact List.Subset.refl _
  | settled => exact List.Subset.refl _
  | foreign => exact List.Subset.refl _
  | derived path t log hnew hstale hpath hadd ht hsound hlog =>
    refine ht.wires_subset fun b hb hname => ?_
    rw [Registry.wires_of_freeName h.coherent hb hname]
    exact List.Subset.refl _

theorem Answer.explicitClocks (h : k.registry.Sound d) (ha : Answer d dep k target k') :
    k'.registry.explicitClocks = k.registry.explicitClocks := by
  cases ha with
  | assigned => rfl
  | settled => rfl
  | foreign => rfl
  | derived path t log hnew hstale hpath hadd ht hsound hlog =>
    refine ht.explicitClocks h (by simp [Departure.clock, Clock.isGenerated])
      fun b hb hexplicit => ?_
    -- an explicit clock on the target would have settled it
    have hoff : target ∉ b.wires := by
      intro hw
      have hcarrier := h.coherent.carrier?_eq_some_iff.mpr ⟨hb, hw⟩
      have hgen := Registry.isGenerated_of_not_settles (hstale b hcarrier)
      rw [hexplicit] at hgen
      cases hgen
    refine ⟨fun hname => hoff ?_, fun w hw hwc => hoff (List.mem_singleton.mp hwc ▸ hw)⟩
    rw [Registry.wires_of_freeName h.coherent hb hname]
    exact List.mem_singleton_self target

structure Frames (d : Design) (r r' : Registry) : Prop where
  sound : r'.Sound d
  explicitClocks : r'.explicitClocks = r.explicitClocks
  wires : r.wires ⊆ r'.wires

theorem visitWire_frames {rules : RuleSet} {r : Registry} (h : Frames d r k.registry)
    (w : WireKey) : Frames d r (visitWire rules d d.fanout k w).registry :=
  visitWire_induction (P := fun k => Frames d r k.registry) h.sound (fun _ _ _ hk => hk)
    (fun _ _ _ _ _ _ _ hsound ha hk =>
      ⟨ha.sound hsound, (ha.explicitClocks hsound).trans hk.explicitClocks,
        List.Subset.trans hk.wires (ha.wires_subset hsound)⟩) h

end Walk

namespace Registry

theorem history_propagate_frame (d : Design) (ops : List Operation) (e : Engine) :
    (history d (ops ++ [.propagate e])).explicitClocks = (history d ops).explicitClocks ∧
      (history d ops).wires ⊆ (history d (ops ++ [.propagate e])).wires := by
  have hsound := sound_history d ops
  have hrefl : Walk.Frames d (history d ops) (history d ops) :=
    ⟨hsound, rfl, List.Subset.refl _⟩
  have happly : Walk.Frames d (history d ops) ((Operation.propagate e).apply d (history d ops)) := by
    simp only [Operation.apply]
    split
    · exact hrefl
    · rename_i hrun
      exact Engine.run_induction (Q := Walk.Frames d (history d ops))
        (fun _ _ _ w hk => Walk.visitWire_frames hk w) hrefl hrun
  rw [show history d (ops ++ [.propagate e]) = (Operation.propagate e).apply d (history d ops) from
    List.foldl_append]
  exact ⟨happly.explicitClocks, happly.wires⟩

end Registry
end ClockTree
