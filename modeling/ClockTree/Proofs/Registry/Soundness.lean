import ClockTree.Proofs.Registry.Enrolment

/-!
# Sound registries

A registry is sound for a design when its indices agree with its clocks, every clock is on wires of
the design and no two are on one, and every wave is valid. Registering a clock keeps a registry
sound, and none of its look-ups misses.
-/
namespace ClockTree

section Duplicates
variable {α : Type} [BEq α] [LawfulBEq α]

theorem eraseDups_concat (xs : List α) (x : α) : (xs ++ [x]).eraseDups =
    if xs.contains x then xs.eraseDups else xs.eraseDups ++ [x] := by
  rw [List.eraseDups_append]
  by_cases hx : x ∈ xs
  · simp [List.removeAll, hx]
  · simp [List.removeAll, hx, List.eraseDups_cons]

theorem nodup_eraseDups (xs : List α) : xs.eraseDups.Nodup := by
  induction xs using List.reverseRecOn with
  | nil => exact List.nodup_nil
  | append_singleton xs x ih =>
    rw [eraseDups_concat]
    split
    · exact ih
    · rename_i hx
      rw [List.contains_iff_mem, ← List.mem_eraseDups] at hx
      exact List.nodup_append.mpr ⟨ih, List.nodup_singleton x, fun a ha b hb same =>
        hx (List.mem_singleton.mp hb ▸ same ▸ ha)⟩

theorem eraseDups_of_nodup {xs : List α} (h : xs.Nodup) : xs.eraseDups = xs := by
  induction xs using List.reverseRecOn with
  | nil => rfl
  | append_singleton xs x ih =>
    have hx : x ∉ xs := fun hx => List.disjoint_of_nodup_append h hx (List.mem_singleton_self x)
    rw [eraseDups_concat, if_neg (by simpa using hx), ih h.of_append_left]

end Duplicates

namespace Registry

/-- Everything that holds of a registry for a design: names and positions agree, every clock is on
wires of the design, each of which carries no other clock, and has a valid wave. -/
structure Sound (d : Design) (r : Registry) : Prop where
  names : (r.clocks.map (·.name)).Nodup
  position : ∀ name i, r.byName[name]? = some i ↔
    ∃ c : Clock, r.clocks[i]? = some c ∧ c.name = name
  wires : ∀ c ∈ r.clocks, c.wires ≠ [] ∧ c.wires.Nodup
  disjoint : r.clocks.Pairwise fun a b => List.Disjoint a.wires b.wires
  owner : ∀ w name, r.byWire[w]? = some name ↔ ∃ c ∈ r.clocks, c.name = name ∧ w ∈ c.wires
  inside : ∀ c ∈ r.clocks, ∀ w ∈ c.wires, (d.wire? w).isSome
  valid : ∀ c ∈ r.clocks, c.wave.Valid

namespace Sound
variable {d : Design} {r : Registry}

theorem coherent (h : r.Sound d) : r.Coherent :=
  ⟨h.position, h.owner, fun c hc => (h.wires c hc).2⟩

theorem of_coherent (h : r.Coherent) (hwires : ∀ c ∈ r.clocks, c.wires ≠ [])
    (hinside : ∀ c ∈ r.clocks, ∀ w ∈ c.wires, (d.wire? w).isSome)
    (hvalid : ∀ c ∈ r.clocks, c.wave.Valid) : r.Sound d where
  names := h.names_nodup
  position := h.position
  wires c hc := ⟨hwires c hc, h.nodup c hc⟩
  disjoint := h.wires_disjoint
  owner := h.owner
  inside := hinside
  valid := hvalid

theorem empty : Sound d {} :=
  of_coherent coherent_empty (by simp) (by simp) (by simp)

end Sound

theorem refuse?_eq_none_iff {d : Design} {spec : ClockDeclaration} :
    refuse? d spec = none ↔
      spec.wave.Valid ∧ spec.wires ≠ [] ∧ ∀ w ∈ spec.wires, (d.wire? w).isSome := by
  unfold refuse? Wave.Valid
  cases spec.wave.fault? with
  | some fault => simp
  | none =>
    by_cases hw : spec.wires = []
    · simp [hw]
    · simp [hw, List.isEmpty_iff, Option.isSome_iff_ne_none]

theorem clock_wires_ne {d : Design} {spec : ClockDeclaration} (h : refuse? d spec = none) :
    spec.clock.wires ≠ [] := by
  obtain ⟨-, hne, -⟩ := refuse?_eq_none_iff.mp h
  obtain ⟨w, hw⟩ := List.exists_mem_of_ne_nil spec.wires hne
  exact List.ne_nil_of_mem (List.mem_eraseDups.mpr hw)

/-- A registration succeeds in every coherent registry whose clocks are on wires, on whatever design
it was made. -/
theorem Coherent.attempt_cases {r : Registry} (h : r.Coherent)
    (hwires : ∀ b ∈ r.clocks, b.wires ≠ []) (d : Design) (spec : ClockDeclaration)
    (log : List Diagnostic) :
    (∃ fault, refuse? d spec = some fault ∧
      (attempt d spec).run ⟨r, log⟩ = .error fault ⟨r, log⟩) ∨
    ∃ t : Transfer, refuse? d spec = none ∧ t.Completes r spec.clock ∧
      (attempt d spec).run ⟨r, log⟩ = .ok spec.clock
        ⟨t.registry, log ++ t.news d spec.name ++ t.emptied.map Notice.dropped⟩ := by
  unfold attempt
  cases hspec : refuse? d spec with
  | some fault => exact Or.inl ⟨fault, rfl, rfl⟩
  | none =>
    obtain ⟨t, ht, hcompletes⟩ := h.enroll_completes hwires (nodup_eraseDups spec.wires)
      (clock_wires_ne hspec) d log
    exact Or.inr ⟨t, rfl, hcompletes, ht⟩

theorem Coherent.add_cases {r : Registry} (h : r.Coherent) (hwires : ∀ b ∈ r.clocks, b.wires ≠ [])
    (d : Design) (spec : ClockDeclaration) :
    (∃ fault, refuse? d spec = some fault ∧ r.add d spec = .error fault) ∨
    ∃ t : Transfer, refuse? d spec = none ∧ t.Completes r spec.clock ∧
      r.add d spec = .ok (spec.clock, t.registry,
        t.moved.map (fun (w, owner) => Notice.moved ((d.path? w).getD w.describe) owner spec.name)
          ++ t.emptied.map Notice.dropped) := by
  obtain ⟨fault, hspec, hrun⟩ | ⟨t, hspec, ht, hrun⟩ := h.attempt_cases hwires d spec []
  · exact Or.inl ⟨fault, hspec, by rw [add, hrun]⟩
  · exact Or.inr ⟨t, hspec, ht, by rw [add, hrun]; rfl⟩

namespace Sound
variable {d : Design} {r : Registry} {spec : ClockDeclaration}

theorem wires_ne (h : r.Sound d) : ∀ c ∈ r.clocks, c.wires ≠ [] := fun c hc => (h.wires c hc).1

theorem of_completes (h : r.Sound d) (hspec : refuse? d spec = none) {t : Transfer}
    (ht : t.Completes r spec.clock) : t.registry.Sound d := by
  obtain ⟨hvalid, hne, hinside⟩ := refuse?_eq_none_iff.mp hspec
  refine of_coherent ht.coherent ?_ ?_ ?_ <;>
    intro x hx <;> rw [ht.mem_clocks] at hx <;>
    obtain ⟨rfl | ⟨b, hb, hn, rfl⟩, hx⟩ := hx
  · exact hx
  · exact hx
  · exact fun w hw => hinside w (List.mem_eraseDups.mp hw)
  · exact fun w hw => h.inside b hb w (Clock.mem_after_wires.mp hw).1
  · exact hvalid
  · rw [Clock.after_wave]
    exact h.valid b hb

theorem add_cases (h : r.Sound d) (spec : ClockDeclaration) :
    (∃ fault, refuse? d spec = some fault ∧ r.add d spec = .error fault) ∨
    ∃ t : Transfer, refuse? d spec = none ∧ t.Completes r spec.clock ∧ t.registry.Sound d ∧
      r.add d spec = .ok (spec.clock, t.registry,
        t.moved.map (fun (w, owner) => Notice.moved ((d.path? w).getD w.describe) owner spec.name)
          ++ t.emptied.map Notice.dropped) := by
  obtain hfault | ⟨t, hspec, ht, hadd⟩ := h.coherent.add_cases h.wires_ne d spec
  · exact Or.inl hfault
  · exact Or.inr ⟨t, hspec, ht, h.of_completes hspec ht, hadd⟩

theorem refuse?_ne_misplaced (name : String) : refuse? d spec ≠ some (.misplaced name) := by
  unfold refuse?
  split
  · simp
  · split <;> simp

theorem add_ne_misplaced (h : r.Sound d) (spec : ClockDeclaration) (name : String) :
    r.add d spec ≠ .error (.misplaced name) := by
  obtain ⟨fault, hspec, hadd⟩ | ⟨t, -, -, -, hadd⟩ := h.add_cases spec <;> rw [hadd]
  · intro same
    cases same
    exact refuse?_ne_misplaced name hspec
  · simp

theorem of_add (h : r.Sound d) {clock : Clock} {r' : Registry} {log : List Diagnostic}
    (hadd : r.add d spec = .ok (clock, r', log)) : r'.Sound d := by
  obtain ⟨fault, -, hadd'⟩ | ⟨t, -, -, hsound, hadd'⟩ := h.add_cases spec <;>
    rw [hadd'] at hadd <;> cases hadd
  exact hsound

end Sound
end Registry
end ClockTree
