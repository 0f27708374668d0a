import ClockTree.Proofs.Netlist.Paths
import ClockTree.Proofs.Outcome
import ClockTree.Proofs.Registry.Soundness
import ClockTree.Proofs.Script.Lines
import ClockTree.Writer.Document

/-!
# Names that are written are found again

A search for written constraints answers with names of clocks, ports and nets. In a plain view each
of these names is a pattern for the one object that has it, so a query by the names that a selection
was written with resolves to the same objects in the same order.
-/
namespace ClockTree

namespace Writer

/-- A name of a port of the top module, of a wire, or else of a clock or a pin that is known. -/
def Refers (d : Design) (clock pin : String → Prop) : ObjectKind → String → Prop
  | .clocks, n => clock n
  | .ports, n => ∃ w, d.isOuterPort w ∧ d.path? w = some n
  | .nets, n => ∃ w, (d.wire? w).isSome ∧ d.path? w = some n
  | .pins, n => pin n
  | .objects, _ => False

theorem Refers.imp {d : Design} {clock clock' pin pin' : String → Prop} {kind : ObjectKind}
    {n : String} (hclock : clock n → clock' n) (hpin : pin n → pin' n)
    (h : Refers d clock pin kind n) : Refers d clock' pin' kind n := by
  cases kind with
  | clocks => exact hclock h
  | pins => exact hpin h
  | ports | nets | objects => exact h

def View.resolve? (v : View) (s : Selection) : Option (List Object) :=
  (s.mapM v.wireAt?).map List.flatten

namespace View
variable {v : View} {kind : ObjectKind} {pattern n : String} {o : Object} {names : List String}

def NamesClock (v : View) (n : String) : Prop := ∃ c ∈ v.clocks, c.name = n

structure Plain (v : View) : Prop where
  design : v.design.Distinct
  named : v.design.Named
  names : (v.clocks.map (·.name)).Nodup
  paths : ∀ c ∈ v.clocks, IsPath c.name

/-- As a pattern the name of the object stands for this object, and it can be written. -/
structure Stands (v : View) (o : Object) : Prop where
  kind : o.1 ≠ .objects
  found : v.matching o.1 o.2 = [o]
  plain : Script.Plain o.2
  head : o.2.toList.head? ≠ some '-'

theorem names_of_isPath (h : IsPath n) : v.names kind n = match kind with
    | .clocks => (v.clocks.filter fun c => (NamePattern.literal n).accepts c.name).map (·.name)
    | .ports => v.design.paths (v.design.portsMatching (.literal n))
    | .nets => v.design.paths (v.design.wiresMatching (.literal n))
    | .pins | .objects => [] := by
  cases kind <;> simp only [View.names, NamePattern.read_of_isLiteral h.isLiteral]

theorem Plain.clock_self (h : v.Plain) (hn : n ∈ v.clocks.map (·.name)) :
    v.names .clocks n = [n] := by
  obtain ⟨c, hc, rfl⟩ := List.mem_map.mp hn
  rw [names_of_isPath (h.paths c hc)]
  dsimp only
  refine eq_singleton (h.names.sublist (List.filter_sublist.map _)) fun m => ?_
  simp only [List.mem_map, List.mem_filter, NamePattern.literal_accepts]
  constructor
  · rintro ⟨b, ⟨-, hb⟩, rfl⟩
    exact hb
  · rintro rfl
    exact ⟨c, ⟨hc, rfl⟩, rfl⟩

theorem Plain.port_self (h : v.Plain) {w : WireKey} (hport : v.design.isOuterPort w)
    (hw : v.design.path? w = some n) : v.names .ports n = [n] := by
  rw [names_of_isPath (h.named.isPath hw)]
  dsimp only
  rw [Design.portsMatching_path h.design hport hw]
  simp [Design.paths, hw]

theorem Plain.net_self (h : v.Plain) {w : WireKey} (hw : v.design.path? w = some n) :
    v.names .nets n = [n] := by
  rw [names_of_isPath (h.named.isPath hw)]
  dsimp only
  rw [Design.wiresMatching_path h.design h.named hw]
  simp [Design.paths, hw]

theorem mem_names_iff : n ∈ v.names kind pattern ↔ ∃ p, NamePattern.read pattern = .ok p ∧
    Refers v.design v.NamesClock (fun _ => False) kind n ∧ p.accepts n := by
  unfold View.names
  cases NamePattern.read pattern with
  | error reason => simp
  | ok p =>
    simp only [Except.ok.injEq, exists_eq_left']
    cases kind with
    | clocks =>
      simp only [List.mem_map, List.mem_filter, Refers, NamesClock]
      constructor
      · rintro ⟨c, ⟨hc, haccepts⟩, rfl⟩
        exact ⟨⟨c, hc, rfl⟩, haccepts⟩
      · rintro ⟨⟨c, hc, rfl⟩, haccepts⟩
        exact ⟨c, ⟨hc, haccepts⟩, rfl⟩
    | ports =>
      rw [Design.mem_paths]
      constructor
      · rintro ⟨w, hw, hpath⟩
        obtain ⟨hport, hfits⟩ := Design.mem_portsMatching_iff.mp hw
        exact ⟨⟨w, hport, hpath⟩, (Design.fits_iff hpath).mp hfits⟩
      · rintro ⟨⟨w, hport, hpath⟩, haccepts⟩
        have hfits := (Design.fits_iff hpath).mpr haccepts
        exact ⟨w, Design.mem_portsMatching_iff.mpr ⟨hport, hfits⟩, hpath⟩
    | nets =>
      rw [Design.mem_paths]
      constructor
      · rintro ⟨w, hw, hpath⟩
        have hfits := Design.mem_wiresMatching.mp hw
        exact ⟨⟨w, Walk.wire?_of_path hpath, hpath⟩, (Design.fits_iff hpath).mp hfits⟩
      · rintro ⟨⟨w, -, hpath⟩, haccepts⟩
        exact ⟨w, Design.mem_wiresMatching.mpr ((Design.fits_iff hpath).mpr haccepts), hpath⟩
    | pins => simp [Refers]
    | objects => simp [Refers]

theorem refers_of_names (hn : n ∈ v.names kind pattern) :
    Refers v.design v.NamesClock (fun _ => False) kind n := by
  obtain ⟨p, -, hrefers, -⟩ := mem_names_iff.mp hn
  exact hrefers

theorem Plain.names_self (h : v.Plain) (hn : n ∈ v.names kind pattern) :
    IsPath n ∧ v.names kind n = [n] := by
  have hn := refers_of_names hn
  cases kind with
  | clocks =>
    obtain ⟨c, hc, rfl⟩ := hn
    exact ⟨h.paths c hc, h.clock_self (List.mem_map_of_mem hc)⟩
  | ports =>
    obtain ⟨w, hport, hpath⟩ := hn
    exact ⟨h.named.isPath hpath, h.port_self hport hpath⟩
  | nets =>
    obtain ⟨w, -, hpath⟩ := hn
    exact ⟨h.named.isPath hpath, h.net_self hpath⟩
  | pins => cases hn
  | objects => cases hn

theorem Plain.stands_of_names (h : v.Plain) (hkind : kind ≠ .pins ∧ kind ≠ .objects)
    (hn : n ∈ v.names kind pattern) : v.Stands (kind, n) := by
  obtain ⟨hpath, hself⟩ := h.names_self hn
  have hmatching : v.matching kind n = [(kind, n)] := by
    cases kind with
    | pins => exact absurd rfl hkind.1
    | objects => exact absurd rfl hkind.2
    | clocks | ports | nets => simp [matching, objects, hself]
  exact ⟨hkind.2, hmatching, hpath.plain, hpath.head?_ne⟩

theorem mem_matching_objects (ho : o ∈ v.matching .objects pattern) :
    ∃ k ∈ [ObjectKind.clocks, .ports, .nets], o ∈ v.objects k pattern := by
  unfold matching at ho
  cases hfind : ([ObjectKind.clocks, .ports, .nets].map fun k => v.objects k pattern).find?
      (!·.isEmpty) with
  | none =>
    rw [hfind] at ho
    exact absurd ho List.not_mem_nil
  | some found =>
    rw [hfind, Option.getD_some] at ho
    obtain ⟨k, hk, rfl⟩ := List.mem_map.mp (List.mem_of_find?_eq_some hfind)
    exact ⟨k, hk, ho⟩

theorem Plain.stands (h : v.Plain) (hpins : kind = .pins → pattern = "*" ∨ IsPath pattern)
    (ho : o ∈ v.matching kind pattern) : v.Stands o := by
  have hobjects : ∀ k, k ≠ .pins ∧ k ≠ .objects → o ∈ v.objects k pattern → v.Stands o := by
    intro k hk ho
    obtain ⟨n, hn, rfl⟩ := List.mem_map.mp ho
    exact h.stands_of_names hk hn
  cases kind with
  | pins =>
    rw [List.mem_singleton.mp ho]
    obtain rfl | hpath := hpins rfl
    · exact ⟨ObjectKind.noConfusion, rfl, by decide, by decide⟩
    · exact ⟨ObjectKind.noConfusion, rfl, hpath.plain, hpath.head?_ne⟩
  | objects =>
    obtain ⟨k, hk, ho⟩ := mem_matching_objects ho
    have hkinds : ∀ k ∈ [ObjectKind.clocks, .ports, .nets], k ≠ .pins ∧ k ≠ .objects := by decide
    exact hobjects k (hkinds k hk) ho
  | clocks | ports | nets => exact hobjects _ (by decide) ho

theorem names_congr {v' : View} (hdesign : v'.design = v.design)
    (hclocks : v'.clocks.map (·.name) = v.clocks.map (·.name)) : v'.names = v.names := by
  have hfilter : ∀ (p : NamePattern) (cs : List Clock),
      (cs.filter fun c => p.accepts c.name).map (·.name) = (cs.map (·.name)).filter p.accepts :=
    fun p cs => by
      rw [List.filter_map]
      rfl
  funext kind pattern
  unfold View.names
  cases NamePattern.read pattern with
  | error e => rfl
  | ok p =>
    cases kind with
    | clocks =>
      dsimp only
      rw [hfilter, hfilter, hclocks]
    | ports | nets => simp only [hdesign]
    | pins | objects => rfl

theorem wireAt?_congr {v' : View} (h : v'.names = v.names) : v'.wireAt? = v.wireAt? := by
  have hobjects : v'.objects = v.objects := by
    funext kind pattern
    rw [View.objects, View.objects, h]
  have hmatching : v'.matching = v.matching := by
    funext kind pattern
    cases kind <;> simp only [matching, hobjects]
  funext q
  unfold wireAt?
  rw [hmatching]

theorem mem_wireAt? {q : Query} {found : List Object} (h : v.wireAt? q = some found)
    (ho : o ∈ found) : ∃ pattern ∈ q.effective, o ∈ v.matching q.kind pattern := by
  unfold wireAt? at h
  dsimp only at h
  split at h
  · cases h
  · obtain rfl := Option.some.inj h
    obtain ⟨l, hl, ho⟩ := List.mem_flatten.mp ho
    obtain ⟨pattern, hpattern, rfl⟩ := List.mem_map.mp hl
    exact ⟨pattern, hpattern, ho⟩

structure Selects (v : View) (kind : ObjectKind) (names : List String) : Prop where
  ne_nil : names ≠ []
  nodup : names.Nodup
  stands : ∀ n ∈ names, v.Stands (kind, n)

theorem Selects.wireAt? (h : v.Selects kind names) :
    v.wireAt? ⟨kind, names⟩ = some (names.map (kind, ·)) := by
  have heffective : (Query.mk kind names).effective = names := by
    rw [Query.effective, if_neg (by simpa using h.ne_nil)]
  have hmap : names.map (v.matching kind) = names.map fun n => [(kind, n)] :=
    List.map_congr_left fun n hn => (h.stands n hn).found
  have hsome : (names.map fun n => [((kind, n) : Object)]).any List.isEmpty = false := by simp
  unfold View.wireAt?
  dsimp only
  rw [heffective, hmap, hsome, if_neg Bool.false_ne_true, ← List.flatMap_def]
  exact congrArg some List.map_eq_flatMap.symm

end View

theorem selector_of_plain (kind : ObjectKind) {names : List String}
    (h : ∀ n ∈ names, Script.Plain n) :
    selector kind names = (Script.Piece.query kind names).text := by
  rw [selector, Script.writeList_of_plain h, Script.Piece.text]
  apply String.toList_inj.mp
  simp

theorem foldl_addObject {kind : ObjectKind} {objects : List Object} (names : List String)
    (h : ∀ o ∈ objects, o.1 = kind) : objects.foldl addObject [(kind, names.eraseDups)] =
      [(kind, (names ++ objects.map (·.2)).eraseDups)] := by
  induction objects generalizing names with
  | nil => simp
  | cons o objects ih =>
    obtain ⟨ho, hobjects⟩ := List.forall_mem_cons.mp h
    have hstep : addObject [(kind, names.eraseDups)] o = [(kind, (names ++ [o.2]).eraseDups)] := by
      rw [addObject, if_pos ho.symm, eraseDups_concat]
      by_cases hmem : o.2 ∈ names <;> simp [hmem]
    rw [List.foldl_cons, hstep, ih _ hobjects, List.map_cons, List.append_assoc,
      List.singleton_append]

theorem runs_of_kind {kind : ObjectKind} {objects : List Object} (h : ∀ o ∈ objects, o.1 = kind)
    (hne : objects ≠ []) : runs objects = [(kind, (objects.map (·.2)).eraseDups)] := by
  obtain ⟨o, objects, rfl⟩ := List.exists_cons_of_ne_nil hne
  obtain ⟨ho, hobjects⟩ := List.forall_mem_cons.mp h
  have hfirst : addObject [] o = [(kind, [o.2].eraseDups)] := by
    rw [addObject, ho]
    rfl
  rw [runs, List.foldl_cons, hfirst, foldl_addObject _ hobjects]
  rfl

namespace View
variable {v : View} {kind : ObjectKind} {names : List String}

def find (v : View) (q : Query) : Except String (List Object) :=
  match v.wireAt? q with
  | some found => .ok found
  | none => .error q.text

theorem find_ok_iff {q : Query} {found : List Object} :
    v.find q = .ok found ↔ v.wireAt? q = some found := by
  unfold find
  cases v.wireAt? q <;> simp

theorem selectionText_eq (s : Selection) : selectionText v s = do
    let objects ← s.mapM v.find
    match (runs objects.flatten).map fun (kind, names) => selector kind names with
    | [] => .error "an empty selection"
    | [one] => return one
    | many => return "[list " ++ " ".intercalate many ++ "]" := rfl

theorem mapM_find {s : Selection} {found : List (List Object)} (h : s.mapM v.find = .ok found) :
    s.mapM v.wireAt? = some found := by
  induction s generalizing found with
  | nil =>
    cases h
    rfl
  | cons q s ih =>
    rw [List.mapM_cons] at h ⊢
    obtain ⟨first, hfirst, h⟩ := bind_eq_ok_iff.mp h
    obtain ⟨rest, hrest, h⟩ := bind_eq_ok_iff.mp h
    obtain rfl := Except.ok.inj h
    rw [find_ok_iff.mp hfirst, ih hrest]
    rfl

theorem selectionText_ok {s : Selection} {text : String} (h : selectionText v s = .ok text) :
    ∃ objects, v.resolve? s = some objects ∧ objects ≠ [] ∧
      ∀ kind names, runs objects = [(kind, names)] → text = selector kind names := by
  rw [selectionText_eq] at h
  obtain ⟨found, hfound, h⟩ := bind_eq_ok_iff.mp h
  refine ⟨found.flatten, by rw [resolve?, mapM_find hfound]; rfl, fun hempty => ?_,
    fun kind names hruns => ?_⟩
  · simp [hempty, runs] at h
  · simp only [hruns, List.map_cons, List.map_nil] at h
    exact (Except.ok.inj h).symm

theorem mem_resolve? {s : Selection} {objects : List Object} (h : v.resolve? s = some objects)
    {o : Object} (ho : o ∈ objects) :
    ∃ q ∈ s, ∃ pattern ∈ q.effective, o ∈ v.matching q.kind pattern := by
  obtain ⟨found, hfound, rfl⟩ := Option.map_eq_some_iff.mp h
  clear h
  induction s generalizing found with
  | nil =>
    cases hfound
    cases ho
  | cons q s ih =>
    rw [List.mapM_cons] at hfound
    obtain ⟨first, hfirst, hfound⟩ := Option.bind_eq_some_iff.mp hfound
    obtain ⟨rest, hrest, hfound⟩ := Option.bind_eq_some_iff.mp hfound
    obtain rfl := Option.some.inj hfound
    rw [List.flatten_cons] at ho
    obtain ho | ho := List.mem_append.mp ho
    · obtain ⟨pattern, hpattern, ho⟩ := mem_wireAt? hfirst ho
      exact ⟨q, List.mem_cons_self, pattern, hpattern, ho⟩
    · obtain ⟨q', hq', hmatching⟩ := ih rest hrest ho
      exact ⟨q', List.mem_cons_of_mem q hq', hmatching⟩

theorem Plain.selects_of_text (h : v.Plain) {s : Selection} {text : String}
    (hpins : ∀ q ∈ s, q.kind = .pins → ∀ p ∈ q.patterns, IsPath p)
    (hkind : ∀ objects ∈ v.resolve? s, ∀ a ∈ objects, ∀ b ∈ objects, a.1 = b.1)
    (htext : selectionText v s = .ok text) :
    ∃ kind names, v.Selects kind names ∧ text = selector kind names := by
  obtain ⟨objects, hobjects, hne, hruns⟩ := selectionText_ok htext
  obtain ⟨first, hfirst⟩ := List.exists_mem_of_ne_nil objects hne
  have hkind : ∀ o ∈ objects, o.1 = first.1 := fun o ho => hkind objects hobjects o ho first hfirst
  refine ⟨first.1, (objects.map (·.2)).eraseDups, ⟨?_, nodup_eraseDups _, fun n hn => ?_⟩,
    hruns _ _ (runs_of_kind hkind hne)⟩
  · exact List.ne_nil_of_mem (List.mem_eraseDups.mpr (List.mem_map_of_mem hfirst))
  · obtain ⟨o, ho, rfl⟩ := List.mem_map.mp (List.mem_eraseDups.mp hn)
    obtain ⟨q, hq, pattern, hpattern, hmatching⟩ := mem_resolve? hobjects ho
    have hpattern : q.kind = .pins → pattern = "*" ∨ IsPath pattern := fun hpin => by
      unfold Query.effective at hpattern
      split at hpattern
      · exact Or.inl (List.mem_singleton.mp hpattern)
      · exact Or.inr (hpins q hq hpin pattern hpattern)
    exact hkind o ho ▸ h.stands hpattern hmatching

theorem Selects.text (h : v.Selects kind names) :
    selectionText v [⟨kind, names⟩] = .ok (selector kind names) := by
  have hsnd : (names.map fun n => ((kind, n) : Object)).map (·.2) = names := by
    rw [List.map_map]
    exact List.map_id' names
  have hkind : ∀ o ∈ names.map fun n => ((kind, n) : Object), o.1 = kind := by simp
  have hruns := runs_of_kind hkind (by simpa using h.ne_nil)
  rw [hsnd, eraseDups_of_nodup h.nodup] at hruns
  simp only [selectionText_eq, List.mapM_cons, List.mapM_nil, find_ok_iff.mpr h.wireAt?, bind,
    Except.bind, pure, Except.pure, List.flatten_singleton, hruns, List.map_cons, List.map_nil]

theorem Selects.selector_eq (h : v.Selects kind names) :
    selector kind names = (Script.Piece.query kind names).text :=
  selector_of_plain kind fun n hn => (h.stands n hn).plain

theorem Selects.plain (h : v.Selects kind names) : (Script.Piece.query kind names).Plain := by
  obtain ⟨n, hn⟩ := List.exists_mem_of_ne_nil names h.ne_nil
  exact ⟨(h.stands n hn).kind, h.ne_nil, fun n hn => ⟨(h.stands n hn).plain, (h.stands n hn).head⟩⟩

theorem groupNames?_eq_some_iff {patterns : List String} : v.groupNames? patterns = some names ↔
    (patterns ≠ [] ∧ ∀ p ∈ patterns, v.names .clocks p ≠ []) ∧
      (patterns.map (v.names .clocks)).flatten.eraseDups = names := by
  unfold groupNames?
  dsimp only
  split
  · rename_i hnone
    simp only [reduceCtorEq, false_iff]
    rintro ⟨⟨hne, hall⟩, -⟩
    simp [hne] at hnone
    obtain ⟨p, hp, hempty⟩ := hnone
    exact hall p hp hempty
  · rename_i hsome
    simp only [Option.some.injEq]
    refine ⟨fun same => ⟨?_, same⟩, And.right⟩
    simpa using hsome

theorem mem_groupNames? {patterns : List String} {n : String}
    (h : v.groupNames? patterns = some names) (hn : n ∈ names) :
    ∃ p ∈ patterns, n ∈ v.names .clocks p := by
  obtain ⟨-, rfl⟩ := groupNames?_eq_some_iff.mp h
  obtain ⟨l, hl, hn⟩ := List.mem_flatten.mp (List.mem_eraseDups.mp hn)
  obtain ⟨p, hp, rfl⟩ := List.mem_map.mp hl
  exact ⟨p, hp, hn⟩

theorem groupNames?_ne_nil {patterns : List String} (h : v.groupNames? patterns = some names) :
    names ≠ [] := by
  obtain ⟨⟨hne, hall⟩, rfl⟩ := groupNames?_eq_some_iff.mp h
  obtain ⟨p, hp⟩ := List.exists_mem_of_ne_nil patterns hne
  obtain ⟨n, hn⟩ := List.exists_mem_of_ne_nil _ (hall p hp)
  have hmem : n ∈ (patterns.map (v.names .clocks)).flatten :=
    List.mem_flatten.mpr ⟨_, List.mem_map_of_mem hp, hn⟩
  exact List.ne_nil_of_mem (List.mem_eraseDups.mpr hmem)

theorem Plain.groupNames (h : v.Plain) {patterns : List String}
    (hnames : v.groupNames? patterns = some names) :
    v.Selects .clocks names ∧ v.groupNames? names = some names := by
  have hself : ∀ n ∈ names, v.names .clocks n = [n] := fun n hn => by
    obtain ⟨p, -, hp⟩ := mem_groupNames? hnames hn
    exact (h.names_self hp).2
  have hstands : ∀ n ∈ names, v.Stands (.clocks, n) := fun n hn => by
    obtain ⟨p, -, hp⟩ := mem_groupNames? hnames hn
    exact h.stands_of_names (by decide) hp
  have hsome := groupNames?_ne_nil hnames
  obtain ⟨-, rfl⟩ := groupNames?_eq_some_iff.mp hnames
  have hnodup := nodup_eraseDups (patterns.map (v.names .clocks)).flatten
  generalize (patterns.map (v.names .clocks)).flatten.eraseDups = names at *
  refine ⟨⟨hsome, hnodup, hstands⟩, groupNames?_eq_some_iff.mpr ⟨⟨hsome, fun n hn => ?_⟩, ?_⟩⟩
  · rw [hself n hn]
    exact List.cons_ne_nil n []
  · rw [List.map_congr_left hself, ← List.flatMap_def, List.flatMap_singleton',
      eraseDups_of_nodup hnodup]

end View
end Writer
end ClockTree
