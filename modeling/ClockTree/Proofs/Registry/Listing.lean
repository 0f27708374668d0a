import ClockTree.Proofs.Notices
import ClockTree.Proofs.Propagation.History

/-!
# A registration as an update of a list

A registry stands for the list of its clocks: a look-up by name or by wire finds the first clock of
the list that has it. Seen this way a registration replaces the clock of its name where it stands or
appends its own, takes the wires of the new clock from all others, and removes the clocks that it
leaves without wires. It reports each wire that it takes and each clock that it removes.
-/
namespace ClockTree

theorem find?_eq_of_iff {α : Type} {p : α → Bool} {l : List α} {o : Option α}
    (h : ∀ a, o = some a ↔ a ∈ l ∧ p a) : l.find? p = o := by
  cases hfound : l.find? p with
  | some a => exact ((h a).mpr ⟨List.mem_of_find?_eq_some hfound, List.find?_some hfound⟩).symm
  | none =>
    refine (Option.eq_none_iff_forall_ne_some.mpr fun a ha => ?_).symm
    obtain ⟨hmem, hp⟩ := (h a).mp ha
    exact List.find?_eq_none.mp hfound a hmem hp

def Clock.leaves? (c b : Clock) : Option Clock :=
  if b.name = c.name then some c
  else
    let rest := b.wires.filter (· ∉ c.wires)
    if rest = [] then none else some { b with wires := rest }

namespace Clock
variable {c b x : Clock}

theorem leaves?_of_name (h : b.name = c.name) : c.leaves? b = some c := if_pos h

theorem leaves?_of_rest (h : b.name ≠ c.name) :
    c.leaves? b = if b.wires.filter (· ∉ c.wires) = [] then none
      else some { b with wires := b.wires.filter (· ∉ c.wires) } := if_neg h

theorem leaves?_eq_guard (hc : c.wires ≠ []) (b : Clock) :
    c.leaves? b = Option.guard (fun x => x.wires ≠ []) (c.cede b) := by
  by_cases hname : b.name = c.name
  · simp [leaves?_of_name hname, cede, hname, Option.guard, hc]
  · rw [leaves?_of_rest hname, cede, if_neg hname, after, if_neg hname]
    split <;> rename_i hrest
    · rw [Option.guard, if_neg (by simpa using hrest)]
    · rw [Option.guard, if_pos (by simpa using hrest)]

theorem leaves?_isNone_iff : (c.leaves? b).isNone ↔ b.name ≠ c.name ∧ b.wires ⊆ c.wires := by
  have hrest : b.wires.filter (· ∉ c.wires) = [] ↔ b.wires ⊆ c.wires := by
    simp [List.filter_eq_nil_iff, List.subset_def]
  by_cases hname : b.name = c.name
  · simp [leaves?_of_name hname, hname]
  · rw [leaves?_of_rest hname, ← hrest]
    split <;> rename_i hempty
    · exact ⟨fun _ => ⟨hname, hempty⟩, fun _ => rfl⟩
    · exact ⟨fun h => (by cases h), fun h => absurd h.2 hempty⟩

theorem leaves?_of_disjoint (hname : b.name ≠ c.name) (hwires : List.Disjoint b.wires c.wires)
    (hne : b.wires ≠ []) : c.leaves? b = some b := by
  rw [leaves?_of_rest hname, filter_notMem_of_disjoint hwires, if_neg hne]

theorem leaves?_name (h : c.leaves? b = some x) : x.name = b.name := by
  by_cases hname : b.name = c.name
  · rw [leaves?_of_name hname] at h
    cases h
    exact hname.symm
  · rw [leaves?_of_rest hname] at h
    split at h <;> cases h
    rfl

end Clock

def ClockDeclaration.Faulty (d : Design) (spec : ClockDeclaration) : Prop :=
  ¬ spec.wave.Valid ∨ spec.wires = [] ∨ ∃ w ∈ spec.wires, d.wire? w = none

theorem ClockDeclaration.not_faulty_iff {d : Design} {spec : ClockDeclaration} :
    ¬ spec.Faulty d ↔ Registry.refuse? d spec = none := by
  rw [Registry.refuse?_eq_none_iff]
  simp only [Faulty, not_or, not_not, not_exists, not_and, ne_eq, ← Option.isSome_iff_ne_none]

namespace Registry

/-- The clocks once `c` is registered: it stands in the place of the clock of its name, or else at the
end. -/
def listing (c : Clock) (cs : List Clock) : List Clock :=
  cs.filterMap c.leaves? ++ if cs.any (·.name == c.name) then [] else [c]

def removals (c : Clock) (cs : List Clock) : List Clock := cs.filter fun b => (c.leaves? b).isNone

def takings (c : Clock) (cs : List Clock) : List (WireKey × Clock) :=
  c.wires.filterMap fun w =>
    (cs.find? fun b => b.name != c.name && b.wires.contains w).map (w, ·)

theorem listing_eq_seated {c : Clock} (hc : c.wires ≠ []) (cs : List Clock) :
    listing c cs = (seated c cs).filter (·.wires ≠ []) := by
  have hleaves : c.leaves? = Option.guard (fun x => x.wires ≠ []) ∘ c.cede :=
    funext (Clock.leaves?_eq_guard hc)
  have hnew : (if cs.any (·.name == c.name) then [] else [c]).filter (·.wires ≠ []) =
      if cs.any (·.name == c.name) then [] else [c] := by
    split <;> simp [hc]
  rw [listing, seated, List.filter_append, hnew, hleaves, ← List.filterMap_map,
    List.filterMap_eq_filter]

theorem mem_listing {c : Clock} {cs : List Clock} {x : Clock} :
    x ∈ listing c cs ↔ x = c ∨ ∃ b ∈ cs, b.name ≠ c.name ∧ c.leaves? b = some x := by
  simp only [listing, List.mem_append, List.mem_filterMap]
  constructor
  · rintro (⟨b, hb, hx⟩ | hx)
    · by_cases hname : b.name = c.name
      · rw [Clock.leaves?, if_pos hname] at hx
        exact Or.inl (Option.some.inj hx).symm
      · exact Or.inr ⟨b, hb, hname, hx⟩
    · split at hx
      · cases hx
      · exact Or.inl (List.mem_singleton.mp hx)
  · rintro (rfl | ⟨b, hb, hname, hx⟩)
    · by_cases hany : cs.any (·.name == x.name)
      · obtain ⟨b, hb, hname⟩ := List.any_eq_true.mp hany
        exact Or.inl ⟨b, hb, Clock.leaves?_of_name (beq_iff_eq.mp hname)⟩
      · exact Or.inr (by simp [hany])
    · exact Or.inl ⟨b, hb, hx⟩

namespace Coherent
variable {r : Registry}

theorem named?_eq_find? (h : r.Coherent) (name : String) :
    r.named? name = r.clocks.find? (·.name == name) :=
  (find?_eq_of_iff fun c => by rw [h.named?_eq_some_iff, beq_iff_eq]).symm

theorem carrier?_eq_find? (h : r.Coherent) (w : WireKey) :
    r.carrier? w = r.clocks.find? (·.wires.contains w) :=
  (find?_eq_of_iff fun c => by rw [h.carrier?_eq_some_iff, List.contains_iff_mem]).symm

theorem other_carrier (h : r.Coherent) (name : String) (w : WireKey) :
    r.clocks.find? (fun b => b.name != name && b.wires.contains w) =
      (r.carrier? w).filter (·.name != name) :=
  find?_eq_of_iff fun b => by
    rw [Option.filter_eq_some_iff, h.carrier?_eq_some_iff, Bool.and_eq_true,
      List.contains_iff_mem, and_assoc, and_comm (a := w ∈ b.wires)]

end Coherent

/-- The registry `r'` has the list that the registration of `c` makes of the one of `r`, its look-ups
answer according to that list, and `news` are the reports: of each wire that changes hands, and then
of each clock that is removed. -/
structure Lists (d : Design) (c : Clock) (r r' : Registry) (news : List Diagnostic) : Prop where
  clocks : r'.clocks = listing c r.clocks
  named : ∀ name, r'.named? name = r'.clocks.find? (·.name == name)
  carrier : ∀ w, r'.carrier? w = r'.clocks.find? (·.wires.contains w)
  news : ∃ moved dropped gone, news = moved ++ dropped ∧
    List.Forall₂ (fun n (x : WireKey × Clock) =>
        n.TellsMoved ((d.path? x.1).getD x.1.describe) x.2.name c.name)
      moved (takings c r.clocks) ∧
    List.Forall₂ Diagnostic.TellsDropped dropped gone ∧
    gone.Perm ((removals c r.clocks).map (·.name))

theorem Lists.mem_new {d : Design} {c : Clock} {r r' : Registry} {news : List Diagnostic}
    (h : Lists d c r r' news) : c ∈ r'.clocks := by
  rw [h.clocks]
  exact mem_listing.mpr (Or.inl rfl)

namespace Transfer.Completes
variable {r : Registry} {c : Clock} {t : Transfer}

theorem wires_ne (ht : t.Completes r c) : ∀ b ∈ t.registry.clocks, b.wires ≠ [] :=
  fun _ hb => (ht.mem_clocks.mp hb).2

theorem emptied_perm (ht : t.Completes r c) (h : r.Coherent) :
    t.emptied.Perm ((removals c r.clocks).map (·.name)) := by
  have hnodup : ((removals c r.clocks).map (·.name)).Nodup :=
    h.names_nodup.sublist ((List.filter_sublist).map _)
  refine (List.perm_ext_iff_of_nodup ht.nodup hnodup).mpr fun n => ?_
  simp only [ht.emptied, List.mem_map, removals, List.mem_filter, Clock.leaves?_isNone_iff]
  constructor
  · rintro ⟨b, hb, rfl, hname, hsub⟩
    exact ⟨b, ⟨hb, hname, hsub⟩, rfl⟩
  · rintro ⟨b, ⟨hb, hname, hsub⟩, rfl⟩
    exact ⟨b, hb, rfl, hname, hsub⟩

theorem moved_eq (ht : t.Completes r c) (h : r.Coherent) :
    t.moved = (takings c r.clocks).map fun x => (x.1, x.2.name) := by
  rw [ht.moved, takings, List.map_filterMap]
  refine List.filterMap_congr fun w _ => ?_
  rw [Option.map_map, h.other_carrier c.name w]
  rfl

theorem lists (ht : t.Completes r c) (h : r.Coherent) (hc : c.wires ≠ []) (d : Design) :
    Lists d c r t.registry (t.news d c.name ++ t.emptied.map Notice.dropped) where
  clocks := by rw [ht.clocks, listing_eq_seated hc]
  named := ht.coherent.named?_eq_find?
  carrier := ht.coherent.carrier?_eq_find?
  news := by
    refine ⟨_, _, t.emptied, rfl, ?_, ?_, ht.emptied_perm h⟩
    · rw [Transfer.news, ht.moved_eq h, List.map_map, List.forall₂_map_left_iff,
        List.forall₂_same]
      exact fun x _ => Notice.moved_tells _ _ _
    · rw [List.forall₂_map_left_iff, List.forall₂_same]
      exact fun name _ => Notice.dropped_tells name

end Transfer.Completes

theorem Coherent.attempt_lists {r : Registry} (h : r.Coherent)
    (hwires : ∀ b ∈ r.clocks, b.wires ≠ []) (d : Design) (spec : ClockDeclaration)
    (log : List Diagnostic) :
    (spec.Faulty d ∧ ∃ fault, (attempt d spec).run ⟨r, log⟩ = .error fault ⟨r, log⟩) ∨
    (¬ spec.Faulty d ∧ ∃ r' news,
      (attempt d spec).run ⟨r, log⟩ = .ok spec.clock ⟨r', log ++ news⟩ ∧ r'.Coherent ∧
      (∀ b ∈ r'.clocks, b.wires ≠ []) ∧ Lists d spec.clock r r' news) := by
  obtain ⟨fault, hfault, hrun⟩ | ⟨t, hnone, ht, hrun⟩ := h.attempt_cases hwires d spec log
  · refine Or.inl ⟨?_, fault, hrun⟩
    by_contra hclear
    rw [ClockDeclaration.not_faulty_iff.mp hclear] at hfault
    cases hfault
  · rw [List.append_assoc] at hrun
    exact Or.inr ⟨ClockDeclaration.not_faulty_iff.mpr hnone, _, _, hrun, ht.coherent, ht.wires_ne,
      ht.lists h (clock_wires_ne hnone) d⟩

theorem Coherent.add_lists {r : Registry} (h : r.Coherent) (hwires : ∀ b ∈ r.clocks, b.wires ≠ [])
    (d : Design) (spec : ClockDeclaration) :
    (spec.Faulty d ∧ ∃ fault, r.add d spec = .error fault) ∨
    (¬ spec.Faulty d ∧ ∃ r' news, r.add d spec = .ok (spec.clock, r', news) ∧ r'.Coherent ∧
      (∀ b ∈ r'.clocks, b.wires ≠ []) ∧ Lists d spec.clock r r' news) := by
  obtain ⟨hfaulty, fault, hrun⟩ | ⟨hclear, r', news, hrun, hrest⟩ :=
    h.attempt_lists hwires d spec []
  · exact Or.inl ⟨hfaulty, fault, by rw [add, hrun]⟩
  · exact Or.inr ⟨hclear, r', news, by rw [add, hrun]; rfl, hrest⟩

/-- A declaration is refused for its own faults alone and then changes nothing. Any other updates the
list of clocks and reports the wires that change hands and the clocks that are removed. -/
theorem history_attempt (d₀ d : Design) (ops : List Operation) (spec : ClockDeclaration)
    (log : List Diagnostic) :
    let r := history d₀ ops
    let clock := ⟨spec.name, spec.wires.eraseDups, spec.wave, spec.origin⟩
    (spec.Faulty d ∧ ∃ fault, (attempt d spec).run ⟨r, log⟩ = .error fault ⟨r, log⟩) ∨
    (¬ spec.Faulty d ∧ ∃ r' news,
      (attempt d spec).run ⟨r, log⟩ = .ok clock ⟨r', log ++ news⟩ ∧
        Lists d clock r r' news) := by
  have hsound := sound_history d₀ ops
  obtain hfaulty | ⟨hclear, r', news, hrun, -, -, hlists⟩ :=
    hsound.coherent.attempt_lists hsound.wires_ne d spec log
  · exact Or.inl hfaulty
  · exact Or.inr ⟨hclear, r', news, hrun, hlists⟩

end Registry
end ClockTree
