import ClockTree.Proofs.Netlist.Paths
import ClockTree.Proofs.Registry.Soundness
import ClockTree.Proofs.Script.Reading
import ClockTree.Proofs.Text.Trim

/-!
# Reading arguments that were written

Each command reads the arguments that a written line has: numbers as the values that their texts
stand for, lists as their elements, and queries by paths as the wires with these paths.
-/
namespace ClockTree

def Wave.reread? {R : Type} (read : String → Option R) (places : Nat) (w : Wave Float) :
    Option (Wave R) := do
  return ⟨← read (Number.trimmed places w.period), ← read (Number.trimmed places w.rise),
    ← read (Number.trimmed places w.fall)⟩

/-- The times of a wave are read as those of another, which are equal. -/
structure Wave.ReadsAs (places : Nat) (w w' : Wave Float) : Prop where
  period : Number.ReadsAs places w.period w'.period
  rise : Number.ReadsAs places w.rise w'.rise
  fall : Number.ReadsAs places w.fall w'.fall

namespace Wave
variable {places : Nat} {w : Wave Float}

theorem reread?_eq_some_iff {R : Type} {read : String → Option R} {w' : Wave R} :
    w.reread? read places = some w' ↔ read (Number.trimmed places w.period) = some w'.period ∧
      read (Number.trimmed places w.rise) = some w'.rise ∧
      read (Number.trimmed places w.fall) = some w'.fall := by
  obtain ⟨period, rise, fall⟩ := w'
  simp only [reread?, Option.bind_eq_bind, Option.bind_eq_some_iff, Option.pure_def,
    Option.some_inj, Wave.mk.injEq]
  constructor
  · rintro ⟨p, hp, r, hr, f, hf, rfl, rfl, rfl⟩
    exact ⟨hp, hr, hf⟩
  · rintro ⟨hp, hr, hf⟩
    exact ⟨period, hp, rise, hr, fall, hf, rfl, rfl, rfl⟩

theorem ReadsAs.valid {w' : Wave Float} (h : w.ReadsAs places w') (hw : w.Valid) : w'.Valid :=
  hw.of_beq h.period.2 h.rise.2 h.fall.2

theorem ReadsAs.reread {w' : Wave Float} (h : w.ReadsAs places w') :
    w.reread? Number.read? places = some w' :=
  reread?_eq_some_iff.mpr ⟨h.period.1, h.rise.1, h.fall.1⟩

end Wave

theorem Text.trim_of_plain {w : String} (h : Script.Plain w) : Text.trim w = w :=
  Text.trim_of_forall fun c hc => Script.isBlank_of_plain (h.2 c hc)

namespace Command
open Script (Piece)

section
variable {valued : List String} {a : Argument} (rest : List Argument)

theorem items_single (h : valued? valued a = none) :
    items valued (a :: rest) = .single a :: items valued rest := by
  cases rest <;> simp [items, h]

end

section
variable {places : Nat} {x y : Float}

theorem readNumber_trimmed (command what : String)
    (h : Number.read? (Number.trimmed places x) = some y) (hy : y.isFinite) :
    readNumber command what (.word (Number.trimmed places x)) = .ok y := by
  simp only [readNumber, Argument.word?, Option.bind_some, Text.trim_of_plain (.of_read h), h,
    Option.filter_some, hy, if_true]

theorem valued?_trimmed {valued : List String} (hvalued : ∀ w ∈ valued, Number.read? w = none)
    (h : Number.read? (Number.trimmed places x) = some y) :
    valued? valued (.word (Number.trimmed places x)) = none := by
  rw [valued?, if_neg]
  rw [List.contains_iff_mem]
  intro hmem
  cases h.symm.trans (hvalued _ hmem)

theorem isSwitch_trimmed (h : Number.read? (Number.trimmed places x) = some y) :
    (Argument.word (Number.trimmed places x)).isSwitch = false := by
  simp [Argument.isSwitch, h]

end

/-! ### Wires by their paths -/

theorem selectWires_singletons {d : Design} {kind : ObjectKind} {ws : List WireKey}
    (command : String) {text : WireKey → String} (pattern : WireKey → NamePattern) (hne : ws ≠ [])
    (hnodup : ws.Nodup) (hread : ∀ w ∈ ws, NamePattern.read (text w) = .ok (pattern w))
    (hfound : ∀ w ∈ ws, kindWires? d (pattern w) kind = some [w]) :
    selectWires d command ⟨kind, ws.map text⟩ = .ok ws := by
  have hpatterns : Session.readPatterns (ws.map text) = .ok (ws.map pattern) := by
    rw [Session.readPatterns, List.mapM_map]
    refine Script.mapM_of_forall fun w hw => ?_
    rw [Function.comp_apply, hread w hw]
    rfl
  have hwires : (ws.map pattern).mapM (kindWires? d · kind) = some (ws.map fun w => [w]) := by
    rw [List.mapM_map]
    exact Script.mapM_of_forall hfound
  have hempty : (ws.map text).isEmpty = false := by simpa using hne
  simp only [selectWires, hempty, Bool.false_eq_true, if_false, hpatterns, bind, Except.bind, hwires,
    ← List.flatMap_def, List.flatMap_singleton', eraseDups_of_nodup hnodup]
  rfl

theorem selectWires_paths {d : Design} (hdistinct : d.Distinct) (hnamed : d.Named)
    {kind : ObjectKind} {ws : List WireKey} (command : String) (hne : ws ≠ []) (hnodup : ws.Nodup)
    (hinside : ∀ w ∈ ws, (d.wire? w).isSome)
    (hkind : kind = .nets ∨ kind = .ports ∧ ∀ w ∈ ws, d.isOuterPort w) :
    selectWires d command ⟨kind, d.paths ws⟩ = .ok ws := by
  obtain ⟨path, hpath, hpaths⟩ := Design.exists_paths hinside
  rw [hpaths]
  refine selectWires_singletons command (fun w => .literal (path w)) hne hnodup
    (fun w hw => NamePattern.read_of_isLiteral (hnamed.isPath (hpath w hw)).isLiteral)
    fun w hw => ?_
  obtain rfl | ⟨rfl, hports⟩ := hkind
  · exact congrArg some (Design.wiresMatching_path hdistinct hnamed (hpath w hw))
  · exact congrArg some (Design.portsMatching_path hdistinct (hports w hw) (hpath w hw))

/-! ### Clocks -/

namespace CreateClock
variable {places : Nat} {name : String} {w w' : Wave Float} {q : Query}

def pieces (places : Nat) (name : String) (w : Wave Float) (q : Query) : List Piece :=
  [.word "-name", .word name, .word "-period", .word (Number.trimmed places w.period),
    .word "-waveform", .list [Number.trimmed places w.rise, Number.trimmed places w.fall],
    .query q.kind q.patterns]

theorem readEdges_written (h : w.reread? Number.read? places = some w') :
    readEdges (.word (" ".intercalate [Number.trimmed places w.rise,
      Number.trimmed places w.fall])) = .ok (w'.rise, w'.fall) := by
  obtain ⟨-, hrise, hfall⟩ := Wave.reread?_eq_some_iff.mp h
  have hplain : ∀ t ∈ [Number.trimmed places w.rise, Number.trimmed places w.fall],
      Script.Plain t :=
    List.forall_mem_cons.mpr ⟨.of_read hrise, List.forall_mem_singleton.mpr (.of_read hfall)⟩
  simp only [readEdges, Script.listItems_intercalate hplain, List.mapM_cons, List.mapM_nil, hrise,
    hfall, Option.pure_def, Option.bind_eq_bind, Option.bind_some]

theorem readOptions_written (h : w.reread? Number.read? places = some w')
    (hfinite : w'.period.isFinite) :
    readOptions ((pieces places name w q).map Piece.argument) =
      if 0 < w'.period then
        .ok (⟨some name, some w'.period, some (w'.rise, w'.fall), [.query q]⟩, w'.period)
      else .error (.periodNotPositive w'.period) := by
  have hitems : items ["-name", "-period", "-waveform"] ((pieces places name w q).map Piece.argument)
      = [.option "-name" (.word name), .option "-period" (.word (Number.trimmed places w.period)),
        .option "-waveform" (.word (" ".intercalate [Number.trimmed places w.rise,
          Number.trimmed places w.fall])), .single (.query q)] := rfl
  have hperiod := readNumber_trimmed "create_clock" "period" (Wave.reread?_eq_some_iff.mp h).1 hfinite
  have hedges := readEdges_written h
  generalize Argument.word (" ".intercalate [Number.trimmed places w.rise,
    Number.trimmed places w.fall]) = edges at hitems hedges
  simp only [readOptions, hitems, List.foldlM, Options.add, Argument.text, Argument.isSwitch, hperiod,
    hedges, bind, Except.bind, pure, Except.pure, Options.checkedPeriod]
  by_cases hpositive : 0 < w'.period <;> simp [hpositive]

theorem findTargets_query {s : Session} {ws : List WireKey}
    (hq : selectWires s.design "create_clock" q = .ok ws) :
    findTargets s [.query q] = { wires := ws } := by
  simp [findTargets, findTarget, hq, Found.ofExcept, Found.append]

theorem run_refused {s : Session} {fault : Fault} (h : w.reread? Number.read? places = some w')
    (hfinite : w'.period.isFinite) (hpositive : 0 < w'.period)
    (hq : selectWires s.design "create_clock" q = .error fault) :
    run s ((pieces places name w q).map Piece.argument) = (s, .error fault) := by
  have hfound : findTargets s [.query q] = { fault := some fault } := by
    simp [findTargets, findTarget, hq, Found.ofExcept, Found.append]
  simp only [run, readOptions_written h hfinite, if_pos hpositive, hfound]
  rfl

theorem run_selected {s : Session} {ws : List WireKey} (h : w.reread? Number.read? places = some w')
    (hfinite : w'.period.isFinite) (hpositive : 0 < w'.period)
    (hq : selectWires s.design "create_clock" q = .ok ws) :
    run s ((pieces places name w q).map Piece.argument) =
      match if ws.isEmpty then s.design.wiresCalled name else ws with
      | [] => (s, .error (.command .noTargets))
      | wires => match s.declare ⟨name, wires, w', .explicit⟩ with
        | .error e => (s, .error e)
        | .ok (_, s) => (s, .ok ()) := by
  simp only [run, readOptions_written h hfinite, if_pos hpositive, findTargets_query hq, Options.spec,
    Option.map_some, Option.getD_some]
  rw [show s.report [] = s from rfl]
  generalize (if ws.isEmpty then s.design.wiresCalled name else ws) = wires
  cases wires <;> rfl

theorem run_written {s : Session} {ws : List WireKey} (h : w.reread? Number.read? places = some w')
    (hfinite : w'.period.isFinite) (hpositive : 0 < w'.period)
    (hq : selectWires s.design "create_clock" q = .ok ws) (hne : ws ≠ []) :
    run s ((pieces places name w q).map Piece.argument) =
      match s.declare ⟨name, ws, w', .explicit⟩ with
      | .error e => (s, .error e)
      | .ok (_, s) => (s, .ok ()) := by
  obtain ⟨first, rest, rfl⟩ := List.exists_cons_of_ne_nil hne
  exact run_selected h hfinite hpositive hq

theorem run_written_ok_iff {s : Session} {ws : List WireKey} (hs : s.clocks.Sound s.design)
    (h : w.reread? Number.read? places = some w') (hfinite : w'.period.isFinite)
    (hq : selectWires s.design "create_clock" q = .ok ws) (hne : ws ≠ [])
    (hinside : ∀ x ∈ ws, (s.design.wire? x).isSome) :
    (run s ((pieces places name w q).map Piece.argument)).2 = .ok () ↔ w'.Valid := by
  by_cases hpositive : 0 < w'.period
  · rw [run_written h hfinite hpositive hq hne]
    have hrefuse : Registry.refuse? s.design ⟨name, ws, w', .explicit⟩ = none ↔
        w'.Valid ∧ ws ≠ [] ∧ ∀ x ∈ ws, (s.design.wire? x).isSome := Registry.refuse?_eq_none_iff
    obtain ⟨fault, hrefused, hadd⟩ | ⟨t, hnone, -, -, hadd⟩ :=
      hs.add_cases ⟨name, ws, w', .explicit⟩
    · have hvalid : ¬ w'.Valid := fun hvalid => by
        cases hrefused.symm.trans (hrefuse.mpr ⟨hvalid, hne, hinside⟩)
      simp [Session.declare, hadd, hvalid]
    · simp [Session.declare, hadd, (hrefuse.mp hnone).1]
  · have hvalid : ¬ w'.Valid := fun hvalid => hpositive hvalid.period_pos
    simp [run, readOptions_written h hfinite, hpositive, hvalid]

end CreateClock

/-! ### Exceptions -/

namespace Constrain
variable {places : Nat} {x y : Float}

def endPieces (option : String) : Option Query → List Piece
  | none => []
  | some q => [.word option, .query q.kind q.patterns]

structure QueryEnds where
  start : Option Query
  through : Option Query
  stop : Option Query

def QueryEnds.endpoints (e : QueryEnds) : Endpoints :=
  ⟨e.start.map ([·]), e.through.map ([·]), e.stop.map ([·])⟩

def QueryEnds.pieces (e : QueryEnds) : List Piece :=
  endPieces "-from" e.start ++ endPieces "-through" e.through ++ endPieces "-to" e.stop

theorem falsePath_written (e : QueryEnds) :
    falsePath (e.pieces.map Piece.argument) = .ok (.falsePath e.endpoints) := by
  obtain ⟨_ | _, _ | _, _ | _⟩ := e <;> rfl

theorem maxDelay_written (h : Number.read? (Number.trimmed places x) = some y) (hy : y.isFinite)
    (e : QueryEnds) :
    maxDelay ((.word (Number.trimmed places x) :: e.pieces).map Piece.argument) =
      .ok (.maxDelay y e.endpoints) := by
  have hdelay : delayItem {} (.single (.word (Number.trimmed places x))) = .ok { delay := some y } := by
    simp [delayItem, Argument.word?, isSwitch_trimmed h, readNumber_trimmed "set_max_delay" "delay" h
      hy, bind, Except.bind, pure, Except.pure]
  have hends : (items endOptions (e.pieces.map Piece.argument)).foldlM delayItem { delay := some y } =
      .ok ⟨some y, e.endpoints⟩ := by
    obtain ⟨_ | _, _ | _, _ | _⟩ := e <;> rfl
  have hvalued : valued? endOptions (.word (Number.trimmed places x)) = none :=
    valued?_trimmed (by decide +kernel) h
  rw [maxDelay, List.map_cons, Piece.argument, items_single _ hvalued, List.foldlM_cons, hdelay]
  simp only [bind, Except.bind, hends, TimingException.ofDelay, hy, if_true]
  rfl

def relationPieces (relation : Option GroupRelation) : List Piece :=
  (relation.map fun r => Piece.word r.flag).toList

def groupPieces (names : List String) : List Piece := [.word "-group", .list names]

theorem items_groups (groups : List (List String)) :
    items ["-group", "-name"] ((groups.flatMap groupPieces).map Piece.argument) =
      groups.map fun names => .option "-group" (.word (" ".intercalate names)) := by
  induction groups with
  | nil => rfl
  | cons names groups ih =>
    rw [List.flatMap_cons, List.map_append, List.map_cons, ← ih]
    rfl

theorem foldlM_groupItem {o : GroupOptions} {groups : List (List String)}
    (h : ∀ names ∈ groups, ∀ n ∈ names, Script.Plain n) :
    (groups.map fun names => Item.option "-group" (.word (" ".intercalate names))).foldlM groupItem o
      = .ok { o with groups := o.groups ++ groups } := by
  induction groups generalizing o with
  | nil => simp [pure, Except.pure]
  | cons names groups ih =>
    obtain ⟨hnames, hgroups⟩ := List.forall_mem_cons.mp h
    have hitem : groupItem o (.option "-group" (.word (" ".intercalate names))) =
        .ok { o with groups := o.groups ++ [names] } := by
      simp only [groupItem, groupPatterns, Script.listItems_intercalate hnames]
      rfl
    rw [List.map_cons, List.foldlM_cons, hitem]
    simp only [bind, Except.bind, ih hgroups, List.append_assoc, List.singleton_append]

theorem clockGroups_written (relation : Option GroupRelation) {groups : List (List String)}
    (hne : groups ≠ []) (h : ∀ names ∈ groups, names ≠ [] ∧ ∀ n ∈ names, Script.Plain n) :
    clockGroups ((relationPieces relation ++ groups.flatMap groupPieces).map Piece.argument) =
      .ok (.clockGroups relation groups) := by
  have hitems : (items ["-group", "-name"]
      ((relationPieces relation ++ groups.flatMap groupPieces).map Piece.argument)).foldlM groupItem {}
      = .ok ⟨relation, groups⟩ := by
    have hgroups := fun o => foldlM_groupItem (o := o) fun names hnames => (h names hnames).2
    rw [← items_groups] at hgroups
    cases relation with
    | none => exact hgroups {}
    | some r =>
      have hvalued : valued? ["-group", "-name"] (.word r.flag) = none := by cases r <;> decide
      have hflag : groupItem {} (.single (.word r.flag)) = .ok { relation := some r } := by
        cases r <;> rfl
      rw [List.map_append, relationPieces, Option.map_some, Option.toList_some, List.map_singleton,
        List.singleton_append, Piece.argument, items_single _ hvalued, List.foldlM_cons, hflag]
      exact hgroups { relation := some r }
  have hfull : groups.findIdx? List.isEmpty = none := by
    rw [List.findIdx?_eq_none_iff]
    exact fun names hnames => by simpa using (h names hnames).1
  have hsome : groups.isEmpty = false := by simpa using hne
  simp only [clockGroups, hitems, TimingException.ofGroups, hsome, Bool.false_eq_true, if_false,
    hfull]
  rfl

end Constrain
end Command
end ClockTree
