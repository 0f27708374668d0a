import ClockTree.Proofs.Session.ExceptionLines

/-!
# What written constraints can refer to

A reference resolves when each of its patterns matches an object that is there to be referred to: a
clock that is written, a port of the top module, a wire, or any pin. An exception has a line exactly
when all of its references resolve. With more clocks written more references resolve, and those to
ports, nets and pins resolve to the same objects.
-/
namespace ClockTree

def TimingException.groups : TimingException → List (List String)
  | .clockGroups _ groups => groups
  | _ => []

theorem Query.effective_ne_nil (q : Query) : q.effective ≠ [] := by
  unfold effective
  split
  · exact List.cons_ne_nil _ _
  · rename_i hpatterns
    simpa using hpatterns

namespace Writer

theorem runs_eq_nil_iff {objects : List Object} : runs objects = [] ↔ objects = [] := by
  constructor
  · intro hruns
    refine List.eq_nil_iff_forall_not_mem.mpr fun o ho => ?_
    have hkind := mem_kinds_runs.mpr ⟨o, ho, rfl⟩
    rw [hruns] at hkind
    cases hkind
  · rintro rfl
    rfl

namespace View
variable {v v' : View} {kind : ObjectKind} {pattern : String} {q : Query} {s : Selection}
  {e : TimingException}

/-! ### Patterns that match -/

/-- The pattern can be read and accepts the name of an object of the kind: a clock that is written,
a port of the top module, or a wire. -/
def Finds (v : View) (kind : ObjectKind) (pattern : String) : Prop :=
  ∃ p n, NamePattern.read pattern = .ok p ∧
    Refers v.design v.NamesClock (fun _ => False) kind n ∧ p.accepts n

/-- A pin is taken as it is, and a bare name may be that of a clock, a port or a wire. -/
def Matches (v : View) : ObjectKind → String → Prop
  | .pins, _ => True
  | .objects, pattern => ∃ kind ∈ [ObjectKind.clocks, .ports, .nets], v.Finds kind pattern
  | kind, pattern => v.Finds kind pattern

/-- An end has no query, or a pattern of an end or of a group matches nothing. -/
def Lacks (v : View) (e : TimingException) : Prop :=
  (∃ s ∈ e.selections, s = [] ∨ ∃ q ∈ s, ∃ p ∈ q.effective, ¬ v.Matches q.kind p) ∨
    ∃ group ∈ e.groups, ∃ p ∈ group, ¬ v.Matches .clocks p

theorem names_ne_nil_iff : v.names kind pattern ≠ [] ↔ v.Finds kind pattern := by
  rw [Finds, exists_comm]
  simp only [← mem_names_iff]
  exact ⟨List.exists_mem_of_ne_nil _, fun ⟨_, hn⟩ => List.ne_nil_of_mem hn⟩

theorem objects_ne_nil_iff : v.objects kind pattern ≠ [] ↔ v.Finds kind pattern := by
  rw [objects, Ne, List.map_eq_nil_iff]
  exact names_ne_nil_iff

theorem matching_ne_nil_iff : v.matching kind pattern ≠ [] ↔ v.Matches kind pattern := by
  cases kind with
  | pins => exact iff_of_true (List.cons_ne_nil _ _) trivial
  | clocks | ports | nets => exact objects_ne_nil_iff
  | objects =>
    rw [matching, Matches]
    cases hfind : ([ObjectKind.clocks, .ports, .nets].map fun k => v.objects k pattern).find?
        (!·.isEmpty) with
    | none =>
      refine iff_of_false (by simp) ?_
      rintro ⟨k, hk, hfinds⟩
      have hempty := List.find?_eq_none.mp hfind _ (List.mem_map_of_mem hk)
      exact objects_ne_nil_iff.mpr hfinds (by simpa using hempty)
    | some found =>
      have hne : found ≠ [] := by simpa using List.find?_some hfind
      obtain ⟨k, hk, rfl⟩ := List.mem_map.mp (List.mem_of_find?_eq_some hfind)
      exact iff_of_true hne ⟨k, hk, objects_ne_nil_iff.mp hne⟩

instance : Decidable (v.Matches kind pattern) := decidable_of_iff _ matching_ne_nil_iff

instance : DecidablePred v.Lacks := fun e =>
  inferInstanceAs (Decidable ((∃ s ∈ e.selections, s = [] ∨
    ∃ q ∈ s, ∃ p ∈ q.effective, ¬ v.Matches q.kind p) ∨
      ∃ group ∈ e.groups, ∃ p ∈ group, ¬ v.Matches .clocks p))

/-! ### References that resolve -/

theorem exists_find_iff :
    (∃ found, v.find q = .ok found) ↔ ∀ p ∈ q.effective, v.Matches q.kind p := by
  simp only [find_ok_iff, ← matching_ne_nil_iff, wireAt?]
  split <;> rename_i hany <;> simpa [List.any_eq_true] using hany

theorem find_ne_nil {found : List Object} (h : v.find q = .ok found) : found ≠ [] := by
  obtain ⟨p, hp⟩ := List.exists_mem_of_ne_nil _ q.effective_ne_nil
  have hmatches := matching_ne_nil_iff.mpr (exists_find_iff.mp ⟨found, h⟩ p hp)
  obtain ⟨o, ho⟩ := List.exists_mem_of_ne_nil _ hmatches
  rw [find_ok_iff, wireAt?] at h
  split at h
  · cases h
  · obtain rfl := Option.some.inj h
    exact List.ne_nil_of_mem (List.mem_flatten.mpr ⟨_, List.mem_map_of_mem hp, ho⟩)

theorem exists_resolveSelection_iff : (∃ s', v.resolveSelection s = .ok s') ↔
    s ≠ [] ∧ ∀ q ∈ s, ∀ p ∈ q.effective, v.Matches q.kind p := by
  have hqueries : (∀ q ∈ s, ∀ p ∈ q.effective, v.Matches q.kind p) ↔
      ∃ objects, s.mapM v.find = .ok objects := by
    rw [exists_mapM_ok_iff]
    exact forall₂_congr fun q _ => exists_find_iff.symm
  -- A query that resolves stands for some object, so only a selection without queries has no runs.
  have hempty : ∀ objects, s.mapM v.find = .ok objects → (runs objects.flatten = [] ↔ s = []) := by
    intro objects hobjects
    rw [runs_eq_nil_iff]
    constructor
    · intro hflatten
      refine List.eq_nil_iff_forall_not_mem.mpr fun q hq => ?_
      obtain ⟨found, hfound⟩ := exists_mapM_ok_iff.mp ⟨objects, hobjects⟩ q hq
      have hmem := (mem_mapM_ok_iff hobjects).mpr ⟨q, hq, hfound⟩
      exact find_ne_nil hfound (List.flatten_eq_nil_iff.mp hflatten found hmem)
    · rintro rfl
      cases hobjects
      rfl
  rw [hqueries, resolveSelection, exists_bind_ok_iff, ← exists_and_left]
  refine exists_congr fun objects => and_comm.trans (and_congr_left fun hobjects => ?_)
  rw [Ne, ← hempty objects hobjects]
  split <;> rename_i hruns
  · simp [hruns]
  · exact iff_of_true ⟨_, rfl⟩ hruns

theorem exists_resolveEnds_iff {ends : Endpoints} : (∃ ends', v.resolveEnds ends = .ok ends') ↔
    ∀ s ∈ ends.selections, ∃ s', v.resolveSelection s = .ok s' := by
  simp only [resolveEnds, exists_bind_ok_iff, pure, Except.pure, Except.ok.injEq, exists_eq',
    and_true, Endpoints.selections, List.forall_mem_append, ← exists_option_mapM_ok_iff,
    exists_and_right, and_assoc]

theorem exists_resolveGroup_iff {patterns : List String} :
    (∃ names, v.resolveGroup patterns = .ok names) ↔
      patterns ≠ [] ∧ ∀ p ∈ patterns, v.Matches .clocks p := by
  simp only [resolveGroup_ok_iff, groupNames?_eq_some_iff, exists_and_left, exists_eq', and_true,
    names_ne_nil_iff, Matches]

theorem exists_resolve_iff :
    (∃ e', v.resolve e = .ok e') ↔ [] ∉ e.groups ∧ ¬ v.Lacks e := by
  have hends : ∀ ends : Endpoints, (∃ ends', v.resolveEnds ends = .ok ends') ↔
      ¬ ∃ s ∈ ends.selections, s = [] ∨ ∃ q ∈ s, ∃ p ∈ q.effective, ¬ v.Matches q.kind p := by
    intro ends
    simp only [exists_resolveEnds_iff, exists_resolveSelection_iff, not_exists, not_and, not_or,
      not_not, ne_eq]
  cases e with
  | falsePath ends | maxDelay delay ends =>
    simp [resolve, exists_bind_ok_iff, pure, Except.pure, hends, TimingException.groups,
      TimingException.selections, Lacks]
  | clockGroups relation groups =>
    have hempty : (∀ group ∈ groups, group ≠ []) ↔ [] ∉ groups :=
      ⟨fun h hmem => h [] hmem rfl, fun h group hgroup same => h (same ▸ hgroup)⟩
    have hgroups : (∃ found, groups.mapM v.resolveGroup = .ok found) ↔
        [] ∉ groups ∧ ∀ group ∈ groups, ∀ p ∈ group, v.Matches .clocks p := by
      simp only [exists_mapM_ok_iff, exists_resolveGroup_iff, forall_and, hempty]
    simp [resolve, exists_bind_ok_iff, pure, Except.pure, hgroups, TimingException.groups,
      TimingException.selections, Lacks]

theorem exists_constraintLine_iff {places : Nat} :
    (∃ line, constraintLine v places e = .ok line) ↔ [] ∉ e.groups ∧ ¬ v.Lacks e := by
  rw [constraintLine_eq_map, ← exists_resolve_iff]
  cases v.resolve e <;> simp [Except.map]

/-! ### Views with more clocks -/

structure Extends (v v' : View) : Prop where
  design : v'.design = v.design
  clocks : v.clocks ⊆ v'.clocks

theorem Finds.mono (hfinds : v.Finds kind pattern) (h : v.Extends v') : v'.Finds kind pattern := by
  obtain ⟨p, n, hread, hrefers, haccepts⟩ := hfinds
  refine ⟨p, n, hread, ?_, haccepts⟩
  rw [h.design]
  refine hrefers.imp ?_ id
  rintro ⟨c, hc, hname⟩
  exact ⟨c, h.clocks hc, hname⟩

theorem Matches.mono (hmatches : v.Matches kind pattern) (h : v.Extends v') :
    v'.Matches kind pattern := by
  cases kind with
  | pins => trivial
  | objects =>
    obtain ⟨k, hk, hfinds⟩ := hmatches
    exact ⟨k, hk, hfinds.mono h⟩
  | clocks | ports | nets => exact Finds.mono hmatches h

theorem Lacks.anti (hlacks : v'.Lacks e) (h : v.Extends v') : v.Lacks e := by
  obtain ⟨s, hs, hempty | ⟨q, hq, p, hp, hnot⟩⟩ | ⟨group, hgroup, p, hp, hnot⟩ := hlacks
  · exact Or.inl ⟨s, hs, Or.inl hempty⟩
  · exact Or.inl ⟨s, hs, Or.inr ⟨q, hq, p, hp, fun hmatches => hnot (hmatches.mono h)⟩⟩
  · exact Or.inr ⟨group, hgroup, p, hp, fun hmatches => hnot (hmatches.mono h)⟩

theorem selectionText_of_design (hdesign : v'.design = v.design)
    (hkinds : ∀ q ∈ s, q.kind ∈ [ObjectKind.ports, .nets, .pins]) :
    selectionText v' s = selectionText v s := by
  have hmatching : ∀ q ∈ s, v'.matching q.kind = v.matching q.kind := fun q hq => by
    have hkind := hkinds q hq
    generalize q.kind = kind at hkind
    funext pattern
    cases kind with
    | clocks | objects => simp at hkind
    | ports | nets => simp only [matching, objects, names, hdesign]
    | pins => rfl
  have hfind : s.mapM v'.find = s.mapM v.find :=
    mapM_congr fun q hq => by rw [find, find, wireAt?, wireAt?, hmatching q hq]
  rw [selectionText_eq, selectionText_eq, hfind]

end View
end Writer
end ClockTree
