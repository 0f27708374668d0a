import ClockTree.Proofs.Notices
import ClockTree.Proofs.Writer.Exceptions

/-!
# Reading the lines of exceptions in the session that wrote them

The objects of a selection are written in runs of one kind. A selection of one kind is written as
one query, which is read; a selection of several kinds is written as a list of queries, which is
refused. So of the written commands those with such a selection are malformed, and no others.
-/
namespace ClockTree
open Script Writer

namespace Writer

/-! ### Runs of objects -/

theorem mem_kinds_addObject {groups : List (ObjectKind × List String)} {o : Object}
    {kind : ObjectKind} : kind ∈ (addObject groups o).map Prod.fst ↔
      kind = o.1 ∨ kind ∈ groups.map Prod.fst := by
  unfold addObject
  split
  · split
    · rename_i hkind
      split <;> simp [hkind]
    · simp
  · simp

theorem mem_kinds_runs {objects : List Object} {kind : ObjectKind} :
    kind ∈ (runs objects).map Prod.fst ↔ ∃ o ∈ objects, o.1 = kind := by
  have hfold : ∀ groups : List (ObjectKind × List String),
      kind ∈ (objects.foldl addObject groups).map Prod.fst ↔
        (∃ o ∈ objects, o.1 = kind) ∨ kind ∈ groups.map Prod.fst := by
    induction objects with
    | nil => simp
    | cons o objects ih =>
      intro groups
      rw [List.foldl_cons, ih, mem_kinds_addObject, List.exists_mem_cons_iff, or_left_comm, eq_comm,
        or_assoc]
  rw [runs, List.map_reverse, List.mem_reverse, hfold]
  simp

theorem names_addObject {groups : List (ObjectKind × List String)} {o : Object}
    (h : ∀ run ∈ groups, run.2 ≠ []) : ∀ run ∈ addObject groups o, run.2 ≠ [] := by
  unfold addObject
  split
  · obtain ⟨hfirst, hrest⟩ := List.forall_mem_cons.mp h
    split
    · split
      · exact h
      · exact List.forall_mem_cons.mpr ⟨by simp, hrest⟩
    · exact List.forall_mem_cons.mpr ⟨by simp, h⟩
  · simp

theorem names_runs {objects : List Object} : ∀ run ∈ runs objects, run.2 ≠ [] := by
  have hfold : ∀ groups : List (ObjectKind × List String), (∀ run ∈ groups, run.2 ≠ []) →
      ∀ run ∈ objects.foldl addObject groups, run.2 ≠ [] := by
    induction objects with
    | nil => exact fun _ h => h
    | cons o objects ih => exact fun groups h => ih _ (names_addObject h)
  exact fun run hrun => hfold [] (List.forall_mem_nil _) run (List.mem_reverse.mp hrun)

theorem length_runs_iff {objects : List Object} (hne : objects ≠ []) :
    (runs objects).length = 1 ↔ ∀ a ∈ objects, ∀ b ∈ objects, a.1 = b.1 := by
  constructor
  · intro hone
    obtain ⟨run, hrun⟩ := List.length_eq_one_iff.mp hone
    have hkind : ∀ o ∈ objects, o.1 = run.1 := fun o ho => by
      have hmem := mem_kinds_runs.mpr ⟨o, ho, rfl⟩
      rw [hrun] at hmem
      exact List.mem_singleton.mp hmem
    exact fun a ha b hb => (hkind a ha).trans (hkind b hb).symm
  · intro hkind
    obtain ⟨first, hfirst⟩ := List.exists_mem_of_ne_nil objects hne
    rw [runs_of_kind (fun o ho => hkind o ho first hfirst) hne, List.length_singleton]

namespace View
variable {v : View} {e e' : TimingException} {s s' : Selection}

def Mixed (v : View) (s : Selection) : Prop :=
  ∃ objects ∈ v.resolve? s, ∃ a ∈ objects, ∃ b ∈ objects, a.1 ≠ b.1

def Mixes (v : View) (e : TimingException) : Prop := ∃ s ∈ e.selections, v.Mixed s

instance : DecidablePred v.Mixed := fun s =>
  inferInstanceAs (Decidable (∃ objects ∈ v.resolve? s, ∃ a ∈ objects, ∃ b ∈ objects, a.1 ≠ b.1))

instance : DecidablePred v.Mixes := fun e =>
  inferInstanceAs (Decidable (∃ s ∈ e.selections, v.Mixed s))

theorem resolveSelection_facts (h : v.resolveSelection s = .ok s') :
    s' ≠ [] ∧ (∀ q ∈ s', q.patterns ≠ []) ∧ (s'.length ≠ 1 ↔ v.Mixed s) := by
  rw [resolveSelection] at h
  obtain ⟨found, hfound, h⟩ := bind_eq_ok_iff.mp h
  split at h
  · cases h
  · rename_i hruns
    obtain rfl := Except.ok.inj h
    have hresolve : v.resolve? s = some found.flatten := by
      rw [resolve?, mapM_find hfound]
      rfl
    have hne : found.flatten ≠ [] := fun hempty => hruns (by rw [hempty]; rfl)
    refine ⟨by simpa using hruns, fun q hq => ?_, ?_⟩
    · obtain ⟨run, hrun, rfl⟩ := List.mem_map.mp hq
      exact names_runs run hrun
    · rw [List.length_map, Ne, length_runs_iff hne]
      simp only [Mixed, hresolve, Option.mem_def, Option.some.injEq, exists_eq_left', not_forall,
        exists_prop, ne_eq]

/-! ### Resolved exceptions -/

theorem forall₂_resolve (h : v.resolve e = .ok e') :
    List.Forall₂ (fun s s' => v.resolveSelection s = .ok s') e.selections e'.selections := by
  cases resolves_of_resolve h with
  | falsePath hends => exact forall₂_resolveEnds hends
  | maxDelay delay hends => exact forall₂_resolveEnds hends
  | clockGroups relation hgroups => exact .nil

theorem mixes_iff (h : v.resolve e = .ok e') :
    (∃ s ∈ e'.selections, s.length ≠ 1) ↔ v.Mixes e :=
  exists_iff_of_forall₂ (forall₂_resolve h) fun _ _ hs => (resolveSelection_facts hs).2.2

theorem exists_resolved (h : v.resolve e = .ok e') (hs : s' ∈ e'.selections) :
    ∃ s ∈ e.selections, v.resolveSelection s = .ok s' :=
  (mem_iff_of_forall₂ (forall₂_resolve h)).mp hs

theorem recorded_of_resolve (h : v.resolve e = .ok e') (he : e.Recorded) : e'.Recorded := by
  cases resolves_of_resolve h with
  | falsePath hends => trivial
  | maxDelay delay hends => exact he
  | clockGroups relation hgroups =>
    refine ⟨?_, fun hempty => ?_⟩
    · rw [← List.length_pos_iff, ← (forall₂_of_mapM_ok hgroups).length_eq, List.length_pos_iff]
      exact he.1
    · obtain ⟨patterns, -, hpatterns⟩ := (mem_mapM_ok_iff hgroups).mp hempty
      exact groupNames?_ne_nil (resolveGroup_ok_iff.mp hpatterns) rfl

theorem patterns_ne_nil (h : v.resolve e = .ok e') : ∀ q ∈ e'.queries, q.patterns ≠ [] := by
  have hends : ∀ q ∈ e'.selections.flatten, q.patterns ≠ [] := fun q hq => by
    obtain ⟨s', hs', hq⟩ := List.mem_flatten.mp hq
    obtain ⟨s, -, hs⟩ := exists_resolved h hs'
    exact (resolveSelection_facts hs).2.1 q hq
  cases resolves_of_resolve h with
  | falsePath _ => exact hends
  | maxDelay delay _ => exact hends
  | clockGroups relation hgroups =>
    intro q hq
    obtain ⟨names, hnames, rfl⟩ := List.mem_map.mp hq
    obtain ⟨patterns, -, hpatterns⟩ := (mem_mapM_ok_iff hgroups).mp hnames
    exact groupNames?_ne_nil (resolveGroup_ok_iff.mp hpatterns)

structure Legible (v : View) : Prop where
  clocks : ∀ c ∈ v.clocks, IsPath c.name
  wires : ∀ w p, v.design.path? w = some p → IsPath p

theorem Legible.isPath_or_any (hv : v.Legible)
    (hpins : ∀ q ∈ e.queries, q.kind = .pins → ∀ p ∈ q.patterns, IsPath p) {kind : ObjectKind}
    {n : String} (h : Refers v.design v.NamesClock e.NamesPin kind n) : IsPath n ∨ n = "*" := by
  cases kind with
  | clocks =>
    obtain ⟨c, hc, rfl⟩ := h
    exact Or.inl (hv.clocks c hc)
  | ports =>
    obtain ⟨w, -, hpath⟩ := h
    exact Or.inl (hv.wires w n hpath)
  | nets =>
    obtain ⟨w, -, hpath⟩ := h
    exact Or.inl (hv.wires w n hpath)
  | pins =>
    obtain ⟨q, hq, hpin, hn⟩ := h
    unfold Query.effective at hn
    split at hn
    · exact Or.inr (List.mem_singleton.mp hn)
    · exact Or.inl (hpins q hq hpin n hn)
  | objects => exact False.elim h

theorem Legible.readable (hv : v.Legible) (h : v.resolve e = .ok e') (he : e.Recorded)
    (hpins : ∀ q ∈ e.queries, q.kind = .pins → ∀ p ∈ q.patterns, IsPath p) : e'.Readable := by
  have hne := patterns_ne_nil h
  refine ⟨fun q hq => ?_, fun s hs => ?_, recorded_of_resolve h he⟩
  · have hknows := knows_of_resolve h q hq
    refine ⟨fun hobjects => ?_, hne q hq, fun n hn => ?_⟩
    · obtain ⟨n, hn⟩ := List.exists_mem_of_ne_nil _ (hne q hq)
      have hrefers := hknows n hn
      rw [hobjects] at hrefers
      exact hrefers
    · obtain hpath | rfl := hv.isPath_or_any hpins (hknows n hn)
      · exact ⟨hpath.plain, hpath.head?_ne⟩
      · exact ⟨by decide, by decide⟩
  · obtain ⟨x, -, hx⟩ := exists_resolved h hs
    exact (resolveSelection_facts hx).1

theorem Legible.exists_readable (hv : v.Legible) {places : Nat} {text : String}
    (htext : constraintLine v places e = .ok text) (he : e.Recorded)
    (hpins : ∀ q ∈ e.queries, q.kind = .pins → ∀ p ∈ q.patterns, IsPath p) :
    ∃ e', v.resolve e = .ok e' ∧ text = e'.text places ∧ e'.Readable := by
  rw [constraintLine_eq_map] at htext
  cases hresolve : v.resolve e with
  | error reference =>
    rw [hresolve] at htext
    cases htext
  | ok e' =>
    rw [hresolve] at htext
    exact ⟨e', rfl, (Except.ok.inj htext).symm, hv.readable hresolve he hpins⟩

/-- The notice says that the substitution that is written for a selection of several kinds is not
supported. -/
def Refuses (v : View) (e : TimingException) (n : Diagnostic) : Prop :=
  ∃ s ∈ e.selections, v.Mixed s ∧ ∃ inner, selectionText v s = .ok ("[" ++ inner ++ "]") ∧
    n.TellsUnsupported inner

theorem selectionText_list (hs : v.resolveSelection s = .ok s') (hlist : s'.length ≠ 1) :
    selectionText v s = .ok ("[" ++ String.ofList (listText s') ++ "]") := by
  obtain ⟨hne, -⟩ := resolveSelection_facts hs
  rw [selectionText_eq_map, hs]
  refine congrArg Except.ok (String.toList_inj.mp ?_)
  match s' with
  | [q] => exact absurd rfl hlist
  | q :: q' :: qs =>
    simp [Selection.text, listText, String.toList_intercalate, Function.comp_def, Query.selector]

end View

def Entry.exceptionLine? : Entry → Option String
  | .exception line => some line
  | _ => none

end Writer

namespace Session

/-! ### The run -/

section
variable {v : View} {places : Nat} {e : TimingException}

theorem runCommand_exception (hv : v.Legible) (he : e.Recorded)
    (hpins : ∀ q ∈ e.queries, q.kind = .pins → ∀ p ∈ q.patterns, IsPath p) {text : String}
    (htext : constraintLine v places e = .ok text) {c : Script.Statement}
    (hc : c.text = text.toList) (s : Session) (file : Nat) :
    ¬ v.Mixes e ∧ (∃ e', s.runCommand file c = (s.addException e', .done)) ∨
      v.Mixes e ∧ ∃ n, v.Refuses e n ∧ s.runCommand file c = (s.report [n], .failed) := by
  obtain ⟨e', hresolve, rfl, hreadable⟩ := hv.exists_readable htext he hpins
  by_cases hmixes : ∃ x ∈ e'.selections, x.length ≠ 1
  · obtain ⟨x, hx, hlist, hread⟩ := hreadable.exists_malformed places hmixes
    obtain ⟨y, hy, hxy⟩ := View.exists_resolved hresolve hx
    refine Or.inr ⟨(View.mixes_iff hresolve).mp hmixes, _,
      ⟨y, hy, (View.resolveSelection_facts hxy).2.2.mp hlist, _,
        View.selectionText_list hxy hlist, Notice.malformedAt_tells ⟨file, c.start, c.stop⟩ _⟩, ?_⟩
    simp only [runCommand, hc, hread]
  · refine Or.inl ⟨mt (View.mixes_iff hresolve).mpr hmixes, ?_⟩
    have hsingle : ∀ x ∈ e'.selections, x.length = 1 := by simpa using hmixes
    obtain ⟨l, hplain, hline, added, hperforms⟩ := hreadable.exists_line places hsingle
    exact ⟨added, runCommand_line file hplain (hc.trans hline.symm) (hperforms s)⟩

theorem foldl_advance_exceptions (hv : v.Legible) {es : List TimingException}
    (hes : ∀ e ∈ es, e.Recorded)
    (hpins : ∀ e ∈ es, ∀ q ∈ e.queries, q.kind = .pins → ∀ p ∈ q.patterns, IsPath p)
    (file : Nat) {cs : List Script.Statement}
    (htexts : cs.map (·.text) =
      (es.filterMap fun e => (constraintLine v places e).toOption).map String.toList)
    (k : Session × ScriptReport) :
    let written := es.filter fun e => (constraintLine v places e).toOption.isSome
    let k' := cs.foldl (advance file) k
    k'.2 = ⟨k.2.commands + written.countP (¬ v.Mixes ·), k.2.failed + written.countP (v.Mixes ·),
        k.2.skipped⟩ ∧
      ∃ notices, k'.1.log = k.1.log.putAll notices ∧
        List.Forall₂ v.Refuses (written.filter (v.Mixes ·)) notices := by
  induction es generalizing cs k with
  | nil =>
    obtain rfl := List.map_eq_nil_iff.mp htexts
    exact ⟨rfl, [], rfl, .nil⟩
  | cons e es ih =>
    obtain ⟨he, hes⟩ := List.forall_mem_cons.mp hes
    obtain ⟨hpin, hpins⟩ := List.forall_mem_cons.mp hpins
    cases htext : constraintLine v places e with
    | error reference =>
      rw [List.filterMap_cons_none (by rw [htext]; rfl)] at htexts
      rw [List.filter_cons_of_neg (by rw [htext]; exact Bool.false_ne_true)]
      exact ih hes hpins htexts k
    | ok text =>
      rw [List.filterMap_cons_some (by rw [htext]; rfl), List.map_cons] at htexts
      obtain ⟨c, cs, rfl, hc, htexts⟩ := List.map_eq_cons_iff.mp htexts
      rw [List.filter_cons_of_pos (by rw [htext]; rfl)]
      dsimp only
      rw [List.foldl_cons]
      obtain ⟨hmixes, added, hrun⟩ | ⟨hmixes, n, hrefuses, hrun⟩ :=
        runCommand_exception hv he hpin htext hc k.1 file
      · have hadvance : advance file k c = (k.1.addException added, k.2.count .done) := by
          rw [advance, hrun]
        obtain ⟨hreport, notices, hlog, hnotices⟩ := ih hes hpins htexts (advance file k c)
        refine ⟨?_, notices, ?_, ?_⟩
        · rw [hreport, hadvance, List.countP_cons_of_pos (by simpa using hmixes),
            List.countP_cons_of_neg (by simpa using hmixes)]
          simp only [ScriptReport.count, ScriptReport.mk.injEq, and_true]
          omega
        · rw [hlog, hadvance]
          rfl
        · rwa [List.filter_cons_of_neg (by simpa using hmixes)]
      · have hadvance : advance file k c = (k.1.report [n], k.2.count .failed) := by
          rw [advance, hrun]
        obtain ⟨hreport, notices, hlog, hnotices⟩ := ih hes hpins htexts (advance file k c)
        refine ⟨?_, n :: notices, ?_, ?_⟩
        · rw [hreport, hadvance, List.countP_cons_of_neg (by simpa using hmixes),
            List.countP_cons_of_pos (by simpa using hmixes)]
          simp only [ScriptReport.count, ScriptReport.mk.injEq, and_true, true_and]
          omega
        · rw [hlog, hadvance]
          rfl
        · rw [List.filter_cons_of_pos (by simpa using hmixes)]
          exact .cons hrefuses hnotices

end

/-! ### The lines of exceptions -/

def exceptionLines (s : Session) (includeGenerated : Bool) : List String :=
  (s.entries includeGenerated).filterMap (·.exceptionLine?)

theorem entries_filterMap {α : Type} {f : Entry → Option α} (hclock : ∀ line, f (.clock line) = none)
    (s : Session) (g : Bool) : (s.entries g).filterMap f =
      s.exceptions.zipIdx.filterMap fun x =>
        f (exceptionEntry ⟨s.design, s.writtenClocks g⟩ s.options.precision x.1 (x.2 + 1)) := by
  have hclocks : ((s.writtenClocks g).map fun c => Entry.clock
      (declarationLine s.design s.options.precision c)).filterMap f = [] :=
    List.filterMap_eq_nil_iff.mpr (List.forall_mem_map.mpr fun _ _ => hclock _)
  rw [entries, Writer.entries, List.filterMap_append, hclocks, List.nil_append,
    List.mapIdx_eq_zipIdx_map, List.filterMap_map]
  rfl

theorem exceptionLines_eq (s : Session) (g : Bool) : s.exceptionLines g =
    s.exceptions.filterMap fun e =>
      (constraintLine ⟨s.design, s.writtenClocks g⟩ s.options.precision e).toOption := by
  rw [exceptionLines, entries_filterMap fun _ => rfl, ← filterMap_zipIdx s.exceptions]
  refine List.filterMap_congr fun x _ => ?_
  rw [exceptionEntry]
  split <;> rename_i hline <;> rw [hline] <;> rfl

/-- If names are paths, the lines of exceptions that a session writes are carried out in this
session, apart from those of exceptions with a selection of objects of more than one kind: these are
malformed, and nothing else is reported. -/
theorem exceptionLines_malformed (d : Design) (actions : List Action) (g : Bool)
    (hclocks : ∀ c ∈ (after d actions).clocks.clocks, IsPath c.name)
    (hwires : ∀ w p, d.path? w = some p → IsPath p)
    (hpins : ∀ e ∈ (after d actions).exceptions, ∀ q ∈ e.queries, q.kind = .pins →
      ∀ p ∈ q.patterns, IsPath p) (file : Nat) :
    let s := after d actions
    let v : View := ⟨d, s.writtenClocks g⟩
    let written := s.exceptions.filter fun e =>
      (constraintLine v s.options.precision e).toOption.isSome
    let (t, report) := s.runScript file (String.join ((s.exceptionLines g).map (· ++ "\n")))
    report = ⟨written.countP (¬ v.Mixes ·), written.countP (v.Mixes ·), 0⟩ ∧
      ∃ notices, t.log = s.log.putAll notices ∧
        List.Forall₂ v.Refuses (written.filter (v.Mixes ·)) notices := by
  obtain ⟨hdesign, -, hrecorded⟩ := after_regular d actions
  generalize after d actions = s at *
  subst hdesign
  have hv : View.Legible ⟨s.design, s.writtenClocks g⟩ :=
    ⟨fun c hc => hclocks c (List.mem_of_mem_filter hc), hwires⟩
  have hsingle : ∀ l ∈ s.exceptionLines g, Single l.toList := fun l hl => by
    rw [exceptionLines_eq] at hl
    obtain ⟨e, he, hline⟩ := List.mem_filterMap.mp hl
    obtain ⟨e', -, rfl, hreadable⟩ :=
      hv.exists_readable (eq_ok_of_toOption hline) (hrecorded e he) (hpins e he)
    exact hreadable.single _
  have hsplit := split_join hsingle
  rw [exceptionLines_eq] at hsplit
  obtain ⟨hreport, hlog⟩ := foldl_advance_exceptions hv hrecorded hpins file hsplit (s, {})
  dsimp only at hreport ⊢
  rw [exceptionLines_eq]
  rw [Nat.zero_add, Nat.zero_add] at hreport
  exact ⟨hreport, hlog⟩

/-- Exceptions with selections by bare names, of which one is a clock and a port. -/
@[irreducible]
def mixedActions : List Action := [
  .declare (.explicit "core/fast" [⟨0, 1⟩, ⟨0, 0⟩] 2.5 (some (0.5, 1.5))),
  .falsePath { start := some [⟨.objects, ["core/fast", "d"]⟩], stop := some [⟨.pins, ["core/q"]⟩] },
  .execute "set_max_delay" [.word "-1.25", .word "-through", .query ⟨.nets, ["n*", "d"]⟩],
  .falsePath { start := some [⟨.objects, ["slow"]⟩] }]

theorem exceptionLines_malformed_bench :
    (∀ c ∈ (after bench mixedActions).clocks.clocks, IsPath c.name) ∧
      (∀ w p, bench.path? w = some p → IsPath p) ∧
      (∀ e ∈ (after bench mixedActions).exceptions, ∀ q ∈ e.queries, q.kind = .pins →
        ∀ p ∈ q.patterns, IsPath p) ∧
      let s := after bench mixedActions
      let v : View := ⟨bench, s.writtenClocks false⟩
      let written := s.exceptions.filter fun e =>
        (constraintLine v s.options.precision e).toOption.isSome
      let (t, report) := s.runScript 0 (String.join ((s.exceptionLines false).map (· ++ "\n")))
      report = ⟨written.countP (¬ v.Mixes ·), written.countP (v.Mixes ·), 0⟩ ∧
        ∃ notices, t.log = s.log.putAll notices ∧
          List.Forall₂ v.Refuses (written.filter (v.Mixes ·)) notices := by
  have hnamed : bench.Named := ⟨by decide, by decide⟩
  have hclocks : ∀ c ∈ (after bench mixedActions).clocks.clocks, IsPath c.name := by
    decide +kernel
  have hpins : ∀ e ∈ (after bench mixedActions).exceptions, ∀ q ∈ e.queries, q.kind = .pins →
      ∀ p ∈ q.patterns, IsPath p := by decide +kernel
  have hwires : ∀ w p, bench.path? w = some p → IsPath p := fun _ _ => hnamed.isPath
  exact ⟨hclocks, hwires, hpins, exceptionLines_malformed bench mixedActions false hclocks hwires
    hpins 0⟩

theorem exceptionLines_refuses_mixed :
    (∀ c ∈ (after bench mixedActions).clocks.clocks, IsPath c.name) ∧ bench.Named ∧
      (∀ e ∈ (after bench mixedActions).exceptions, ∀ q ∈ e.queries, q.kind = .pins →
        ∀ p ∈ q.patterns, IsPath p) ∧
      let s := after bench mixedActions
      s.exceptionLines false =
        ["set_false_path -from [list [get_clocks \x7bcore/fast\x7d] [get_ports \x7bd\x7d]]" ++
            " -to [get_pins \x7bcore/q\x7d]",
          "set_max_delay -1.25 -through [get_nets \x7bn1 n2 d\x7d]"] ∧
        (s.runScript 0 (String.join ((s.exceptionLines false).map (· ++ "\n")))).2 = ⟨1, 1, 0⟩ := by
  refine ⟨by decide +kernel, ⟨by decide, by decide⟩, ?_, ?_⟩
  · decide +kernel
  · decide +kernel

end Session
end ClockTree
