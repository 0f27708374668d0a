import ClockTree.Proofs.Session.Roundtrip

/-!
# Names in written constraints

An exception is resolved by putting the names that are found in the place of its patterns, and its
line is the text of the resolved exception. So what is written can be taken as a list of statements,
and the names in a statement are those of clocks that are declared before it, of ports of the top
module and of wires. Pins alone are named as they were given.
-/
namespace ClockTree

/-! ### Statements -/

namespace Query

def selector (q : Query) : String := Writer.selector q.kind q.patterns

end Query

namespace Selection

def text : Selection → String
  | [q] => q.selector
  | qs => "[list " ++ " ".intercalate (qs.map Query.selector) ++ "]"

def optionText (option : String) : Option Selection → String
  | none => ""
  | some s => " " ++ option ++ " " ++ text s

end Selection

def Endpoints.text (e : Endpoints) : String :=
  Selection.optionText "-from" e.start ++ Selection.optionText "-through" e.through ++
    Selection.optionText "-to" e.stop

namespace TimingException

def text (places : Nat) (e : TimingException) : String :=
  match e with
  | .falsePath ends => e.command ++ ends.text
  | .maxDelay delay ends => e.command ++ " " ++ Number.trimmed places delay ++ ends.text
  | .clockGroups relation groups => e.command ++ (match relation with
      | some r => " " ++ r.flag
      | none => "") ++ String.join (groups.map fun names => " -group " ++ Script.writeList names)

def queries : TimingException → List Query
  | .falsePath ends | .maxDelay _ ends => ends.selections.flatten
  | .clockGroups _ groups => groups.map (Query.mk .clocks)

def NamesPin (e : TimingException) (n : String) : Prop :=
  ∃ q ∈ e.queries, q.kind = .pins ∧ n ∈ q.effective

end TimingException

namespace Writer

/-- A command of written constraints with the names in it. -/
inductive Statement where
  | clock (name : String) (wave : Wave Float) (targets : Query)
  | exception (e : TimingException)

namespace Statement

def ofClock (d : Design) (c : Clock) : Statement :=
  .clock c.name c.wave ⟨targetKind d c, d.paths c.wires⟩

def text (places : Nat) : Statement → String
  | .clock name wave targets => "create_clock -name " ++ Script.writeWord name
      ++ " -period " ++ Number.trimmed places wave.period
      ++ " -waveform \x7b" ++ Number.trimmed places wave.rise ++ " "
      ++ Number.trimmed places wave.fall ++ "\x7d " ++ targets.selector
  | .exception e => e.text places

def queries : Statement → List Query
  | .clock _ _ targets => [targets]
  | .exception e => e.queries

end Statement

theorem Statement.refers_ofClock {d : Design} {c : Clock} {q : Query} {n : String}
    (hq : q ∈ (ofClock d c).queries) (hn : n ∈ q.patterns) :
    Refers d (fun _ => False) (fun _ => False) q.kind n := by
  obtain rfl := List.mem_singleton.mp hq
  obtain ⟨w, hw, hpath⟩ := Design.mem_paths.mp hn
  dsimp only [targetKind]
  split
  · rename_i hports
    exact ⟨w, List.all_eq_true.mp hports w hw, hpath⟩
  · exact ⟨w, Walk.wire?_of_path hpath, hpath⟩

/-! ### Resolved exceptions -/

theorem mem_addObject {groups : List (ObjectKind × List String)} {run : ObjectKind × List String}
    {o : Object} {n : String} (h : run ∈ addObject groups o) (hn : n ∈ run.2) :
    (run.1, n) = o ∨ ∃ group ∈ groups, group.1 = run.1 ∧ n ∈ group.2 := by
  unfold addObject at h
  split at h
  · rename_i kind names rest
    split at h
    · rename_i hkind
      split at h
      · exact Or.inr ⟨run, h, rfl, hn⟩
      · obtain rfl | h := List.mem_cons.mp h
        · obtain hn | hn := List.mem_append.mp hn
          · exact Or.inr ⟨(kind, names), List.mem_cons_self, rfl, hn⟩
          · exact Or.inl (Prod.ext hkind (List.mem_singleton.mp hn))
        · exact Or.inr ⟨run, List.mem_cons_of_mem _ h, rfl, hn⟩
    · obtain rfl | h := List.mem_cons.mp h
      · exact Or.inl (Prod.ext rfl (List.mem_singleton.mp hn))
      · exact Or.inr ⟨run, h, rfl, hn⟩
  · obtain rfl := List.mem_singleton.mp h
    exact Or.inl (Prod.ext rfl (List.mem_singleton.mp hn))

theorem mem_foldl_addObject {objects : List Object} {groups : List (ObjectKind × List String)}
    {run : ObjectKind × List String} {n : String} (h : run ∈ objects.foldl addObject groups)
    (hn : n ∈ run.2) :
    (run.1, n) ∈ objects ∨ ∃ group ∈ groups, group.1 = run.1 ∧ n ∈ group.2 := by
  induction objects generalizing groups with
  | nil => exact Or.inr ⟨run, h, rfl, hn⟩
  | cons o objects ih =>
    obtain hmem | ⟨group, hgroup, hkind, hname⟩ := ih h
    · exact Or.inl (List.mem_cons_of_mem o hmem)
    · rw [← hkind]
      obtain hnew | hold := mem_addObject hgroup hname
      · exact Or.inl (hnew ▸ List.mem_cons_self)
      · exact Or.inr hold

theorem mem_of_mem_runs {objects : List Object} {run : ObjectKind × List String} {n : String}
    (h : run ∈ runs objects) (hn : n ∈ run.2) : (run.1, n) ∈ objects := by
  obtain hmem | ⟨group, hgroup, -⟩ := mem_foldl_addObject (List.mem_reverse.mp h) hn
  · exact hmem
  · cases hgroup

namespace View
variable {v : View} {e e' : TimingException} {q : Query} {s s' : Selection} {o : Object}
  {kind : ObjectKind} {pattern n : String}

def resolveSelection (v : View) (s : Selection) : Except String Selection := do
  let objects ← s.mapM v.find
  match runs objects.flatten with
  | [] => .error "an empty selection"
  | found => return found.map fun (kind, names) => ⟨kind, names⟩

def resolveEnds (v : View) (e : Endpoints) : Except String Endpoints := do
  let start ← e.start.mapM v.resolveSelection
  let through ← e.through.mapM v.resolveSelection
  let stop ← e.stop.mapM v.resolveSelection
  return ⟨start, through, stop⟩

def resolveGroup (v : View) (patterns : List String) : Except String (List String) :=
  match v.groupNames? patterns with
  | some names => .ok names
  | none => .error (Query.text ⟨.clocks, patterns⟩)

theorem resolveGroup_ok_iff {patterns names : List String} :
    v.resolveGroup patterns = .ok names ↔ v.groupNames? patterns = some names := by
  unfold resolveGroup
  cases v.groupNames? patterns <;> simp

/-- The exception with the names that its patterns stand for, or the first reference that does not
resolve. -/
def resolve (v : View) : TimingException → Except String TimingException
  | .falsePath ends => return .falsePath (← v.resolveEnds ends)
  | .maxDelay delay ends => return .maxDelay delay (← v.resolveEnds ends)
  | .clockGroups relation groups => return .clockGroups relation (← groups.mapM v.resolveGroup)

theorem selectionText_eq_map (s : Selection) :
    selectionText v s = (v.resolveSelection s).map Selection.text := by
  rw [selectionText_eq, resolveSelection]
  cases s.mapM v.find with
  | error reference => rfl
  | ok objects =>
    simp only [bind, Except.bind]
    match runs objects.flatten with
    | [] => rfl
    | [one] => rfl
    | one :: another :: more =>
      simp only [pure, Except.pure, Except.map, Selection.text, List.map_cons, List.map_map]
      rfl

theorem endText_eq_map (option : String) (s : Option Selection) :
    endText v option s = (s.mapM v.resolveSelection).map (Selection.optionText option) := by
  cases s with
  | none => rfl
  | some s =>
    rw [endText, selectionText_eq_map, Option.mapM_some]
    cases v.resolveSelection s <;> rfl

theorem endsText_eq_map (ends : Endpoints) :
    endsText v ends = (v.resolveEnds ends).map Endpoints.text := by
  rw [endsText, resolveEnds, endText_eq_map, endText_eq_map, endText_eq_map]
  cases ends.start.mapM v.resolveSelection with
  | error reference => rfl
  | ok start =>
    cases ends.through.mapM v.resolveSelection with
    | error reference => rfl
    | ok through => cases ends.stop.mapM v.resolveSelection <;> rfl

theorem groupText_eq_map (patterns : List String) : groupText v patterns =
    (v.resolveGroup patterns).map fun names => " -group " ++ Script.writeList names := by
  rw [groupText, resolveGroup]
  cases v.groupNames? patterns <;> rfl

theorem constraintLine_eq_map (places : Nat) (e : TimingException) :
    constraintLine v places e = (v.resolve e).map (TimingException.text places) := by
  cases e with
  | falsePath ends =>
    rw [constraintLine, resolve, endsText_eq_map]
    cases v.resolveEnds ends <;> rfl
  | maxDelay delay ends =>
    rw [constraintLine, resolve, endsText_eq_map]
    cases v.resolveEnds ends <;> rfl
  | clockGroups relation groups =>
    have htexts : groups.mapM (groupText v) = _ :=
      (congrArg groups.mapM (funext groupText_eq_map)).trans (mapM_map_ok groups)
    simp only [constraintLine, resolve, htexts]
    cases groups.mapM v.resolveGroup <;> rfl

/-! ### What ends and groups are resolved to -/

inductive Resolves (v : View) : TimingException → TimingException → Prop where
  | falsePath {ends ends' : Endpoints} (hends : v.resolveEnds ends = .ok ends') :
    Resolves v (.falsePath ends) (.falsePath ends')
  | maxDelay (delay : Float) {ends ends' : Endpoints} (hends : v.resolveEnds ends = .ok ends') :
    Resolves v (.maxDelay delay ends) (.maxDelay delay ends')
  | clockGroups (relation : Option GroupRelation) {groups found : List (List String)}
    (hgroups : groups.mapM v.resolveGroup = .ok found) :
    Resolves v (.clockGroups relation groups) (.clockGroups relation found)

theorem resolves_of_resolve (h : v.resolve e = .ok e') : v.Resolves e e' := by
  cases e with
  | falsePath ends =>
    obtain ⟨ends', hends, h⟩ := bind_eq_ok_iff.mp h
    obtain rfl := Except.ok.inj h
    exact .falsePath hends
  | maxDelay delay ends =>
    obtain ⟨ends', hends, h⟩ := bind_eq_ok_iff.mp h
    obtain rfl := Except.ok.inj h
    exact .maxDelay delay hends
  | clockGroups relation groups =>
    obtain ⟨found, hgroups, h⟩ := bind_eq_ok_iff.mp h
    obtain rfl := Except.ok.inj h
    exact .clockGroups relation hgroups

theorem forall₂_resolveEnd {x x' : Option Selection} (h : x.mapM v.resolveSelection = .ok x') :
    List.Forall₂ (fun s s' => v.resolveSelection s = .ok s') x.toList x'.toList := by
  cases x with
  | none =>
    cases h
    exact .nil
  | some s =>
    rw [Option.mapM_some] at h
    cases hs : v.resolveSelection s with
    | error reference =>
      rw [hs] at h
      cases h
    | ok s' =>
      rw [hs] at h
      obtain rfl : some s' = x' := Except.ok.inj h
      exact .cons hs .nil

theorem forall₂_resolveEnds {ends ends' : Endpoints} (h : v.resolveEnds ends = .ok ends') :
    List.Forall₂ (fun s s' => v.resolveSelection s = .ok s') ends.selections ends'.selections := by
  rw [resolveEnds] at h
  obtain ⟨start, hstart, h⟩ := bind_eq_ok_iff.mp h
  obtain ⟨through, hthrough, h⟩ := bind_eq_ok_iff.mp h
  obtain ⟨stop, hstop, h⟩ := bind_eq_ok_iff.mp h
  obtain rfl := Except.ok.inj h
  exact List.rel_append (List.rel_append (forall₂_resolveEnd hstart) (forall₂_resolveEnd hthrough))
    (forall₂_resolveEnd hstop)

/-! ### What names refer to -/

def Knows (v : View) (e : TimingException) (q : Query) : Prop :=
  ∀ n ∈ q.patterns, Refers v.design v.NamesClock e.NamesPin q.kind n

theorem refers_of_matching (hq : q ∈ e.queries) (hpattern : pattern ∈ q.effective)
    (ho : o ∈ v.matching q.kind pattern) : Refers v.design v.NamesClock e.NamesPin o.1 o.2 := by
  have hobjects : ∀ k, o ∈ v.objects k pattern →
      Refers v.design v.NamesClock e.NamesPin o.1 o.2 := fun k ho => by
    obtain ⟨n, hn, rfl⟩ := List.mem_map.mp ho
    exact (refers_of_names hn).imp id False.elim
  cases hkind : q.kind with
  | pins =>
    rw [hkind] at ho
    rw [List.mem_singleton.mp ho]
    exact ⟨q, hq, hkind, hpattern⟩
  | objects =>
    rw [hkind] at ho
    obtain ⟨k, -, ho⟩ := mem_matching_objects ho
    exact hobjects k ho
  | clocks | ports | nets =>
    rw [hkind] at ho
    exact hobjects _ ho

theorem knows_of_resolveSelection (h : v.resolveSelection s = .ok s')
    (hs : ∀ q ∈ s, q ∈ e.queries) : ∀ q ∈ s', v.Knows e q := by
  rw [resolveSelection] at h
  obtain ⟨objects, hobjects, h⟩ := bind_eq_ok_iff.mp h
  split at h
  · cases h
  · obtain rfl := Except.ok.inj h
    intro q hq n hn
    obtain ⟨run, hrun, rfl⟩ := List.mem_map.mp hq
    obtain ⟨found, hfound, ho⟩ := List.mem_flatten.mp (mem_of_mem_runs hrun hn)
    obtain ⟨q, hq, hfind⟩ := (mem_mapM_ok_iff hobjects).mp hfound
    obtain ⟨pattern, hpattern, ho⟩ := mem_wireAt? (find_ok_iff.mp hfind) ho
    exact refers_of_matching (hs q hq) hpattern ho

theorem knows_of_resolveEnds {ends ends' : Endpoints} (h : v.resolveEnds ends = .ok ends')
    (hends : ∀ s ∈ ends.selections, ∀ q ∈ s, q ∈ e.queries) :
    ∀ q ∈ ends'.selections.flatten, v.Knows e q := by
  intro q hq
  obtain ⟨s', hs', hq⟩ := List.mem_flatten.mp hq
  obtain ⟨s, hs, hresolve⟩ := (mem_iff_of_forall₂ (forall₂_resolveEnds h)).mp hs'
  exact knows_of_resolveSelection hresolve (hends s hs) q hq

theorem knows_of_resolve (h : v.resolve e = .ok e') : ∀ q ∈ e'.queries, v.Knows e q := by
  cases resolves_of_resolve h with
  | falsePath hends =>
    exact knows_of_resolveEnds hends fun s hs q hq => List.mem_flatten_of_mem hs hq
  | maxDelay delay hends =>
    exact knows_of_resolveEnds hends fun s hs q hq => List.mem_flatten_of_mem hs hq
  | clockGroups relation hgroups =>
    intro q hq n hn
    obtain ⟨names, hnames, rfl⟩ := List.mem_map.mp hq
    obtain ⟨patterns, -, hpatterns⟩ := (mem_mapM_ok_iff hgroups).mp hnames
    obtain ⟨p, -, hn⟩ := mem_groupNames? (resolveGroup_ok_iff.mp hpatterns) hn
    exact (refers_of_names hn).imp id False.elim

end View
end Writer

namespace Session
open Writer

def statements (s : Session) (includeGenerated : Bool) : List Statement :=
  (s.writtenClocks includeGenerated).map (Statement.ofClock s.design) ++
    s.exceptions.filterMap fun e =>
      (View.resolve ⟨s.design, s.writtenClocks includeGenerated⟩ e).toOption.map .exception

theorem map_text_statements (s : Session) (g : Bool) :
    (s.statements g).map (·.text s.options.precision) = (s.entries g).filterMap (·.line?) := by
  rw [filterMap_entries, statements, List.map_append, List.map_map, List.map_filterMap]
  refine congrArg (_ ++ ·) (List.filterMap_congr fun e _ => ?_)
  rw [View.constraintLine_eq_map]
  cases View.resolve ⟨s.design, s.writtenClocks g⟩ e <;> rfl

theorem statements_getElem? {s : Session} {g : Bool} {i : Nat} {st : Statement}
    (h : (s.statements g)[i]? = some st) :
    (∃ c ∈ s.writtenClocks g, st = .ofClock s.design c) ∨
      ∃ e ∈ s.exceptions, ∃ e', View.resolve ⟨s.design, s.writtenClocks g⟩ e = .ok e' ∧
        st = .exception e' ∧
        ∀ c ∈ s.writtenClocks g, .ofClock s.design c ∈ (s.statements g).take i := by
  unfold statements at h ⊢
  obtain hlt | hle := Nat.lt_or_ge i
    ((s.writtenClocks g).map (Statement.ofClock s.design)).length
  · rw [List.getElem?_append_left hlt] at h
    obtain ⟨c, hc, rfl⟩ := List.mem_map.mp (List.mem_of_getElem? h)
    exact Or.inl ⟨c, hc, rfl⟩
  · rw [List.getElem?_append_right hle] at h
    obtain ⟨e, he, h⟩ := List.mem_filterMap.mp (List.mem_of_getElem? h)
    obtain ⟨e', hresolve, rfl⟩ := Option.map_eq_some_iff.mp h
    refine Or.inr ⟨e, he, e', eq_ok_of_toOption hresolve, rfl, fun c hc => ?_⟩
    rw [List.take_append, List.take_of_length_le hle]
    exact List.mem_append_left _ (List.mem_map_of_mem hc)

/-- Every name in a statement stands for a clock that is declared before it, a port of the top
module or a wire, apart from pins, which are named as they were given. -/
theorem write_references (s : Session) (g : Bool) :
    (s.write g).1.text =
        String.join ((s.statements g).map fun st => st.text s.options.precision ++ "\n") ∧
      ∀ (i : Nat) (st : Statement), (s.statements g)[i]? = some st →
        ∀ q ∈ st.queries, ∀ n ∈ q.patterns,
          Refers s.design
            (fun n => ∃ c ∈ s.clocks.clocks, c.name = n ∧
              Statement.ofClock s.design c ∈ (s.statements g).take i)
            (fun n => ∃ e ∈ s.exceptions, e.NamesPin n) q.kind n := by
  refine ⟨?_, fun i st hst q hq n hn => ?_⟩
  · rw [write_text_entries, ← map_text_statements, List.map_map]
    rfl
  · obtain ⟨c, -, rfl⟩ | ⟨e, he, e', hresolve, rfl, hdeclared⟩ := statements_getElem? hst
    · exact (Statement.refers_ofClock hq hn).imp False.elim False.elim
    · refine (View.knows_of_resolve hresolve q hq n hn).imp ?_ fun hpin => ⟨e, he, hpin⟩
      rintro ⟨c, hc, hname⟩
      exact ⟨c, List.mem_of_mem_filter hc, hname, hdeclared c hc⟩

end Session
end ClockTree
