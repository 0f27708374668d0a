import ClockTree.Proofs.Script.Sentences
import ClockTree.Proofs.Writer.Lines

/-!
# Writing, reading and writing again

The text that a session writes is carried out line by line in a fresh session on the same design:
the lines of the clocks put them in the registry in their order, and each line of an exception
records an exception that is written as this line. So the second text is the first.
-/
namespace ClockTree

structure Clock.Same (a b : Clock) : Prop where
  name : b.name = a.name
  wires : b.wires = a.wires
  origin : b.origin = .explicit
  period : a.wave.period == b.wave.period
  rise : a.wave.rise == b.wave.rise
  fall : a.wave.fall == b.wave.fall

structure Clock.ReadsAs (places : Nat) (a b : Clock) : Prop where
  name : b.name = a.name
  wires : b.wires = a.wires
  origin : b.origin = .explicit
  wave : a.wave.ReadsAs places b.wave

theorem Clock.ReadsAs.same {places : Nat} {a b : Clock} (h : a.ReadsAs places b) : a.Same b :=
  ⟨h.name, h.wires, h.origin, h.wave.period.2, h.wave.rise.2, h.wave.fall.2⟩

theorem Command.ofName?_name (c : Command) : Command.ofName? c.name = some c := by
  cases c <;> decide

namespace Session
open Script Command Writer

/-! ### Carrying out lines -/

inductive Runs : Session → List Line → Session → Prop where
  | nil (s : Session) : Runs s [] s
  | cons {s s' t : Session} {l : Line} {lines : List Line}
      (hl : s.perform l.command (l.pieces.map Piece.argument) = (s', .ok .nothing))
      (rest : Runs s' lines t) : Runs s (l :: lines) t

theorem Runs.append {s t u : Session} {lines lines' : List Line} (h : Runs s lines t)
    (h' : Runs t lines' u) : Runs s (lines ++ lines') u := by
  induction h with
  | nil => exact h'
  | cons hl _ ih => exact .cons hl (ih h')

theorem runCommand_line (file : Nat) {s s' : Session} {l : Line} {c : Statement} (hplain : l.Plain)
    (htext : c.text = l.text.toList)
    (hl : s.perform l.command (l.pieces.map Piece.argument) = (s', .ok .nothing)) :
    s.runCommand file c = (s', .done) := by
  simp only [runCommand, htext, Line.readCommand hplain, ofName?_name, hl]

theorem foldl_advance_runs {file : Nat} {s t : Session} {lines : List Line} (h : Runs s lines t)
    (hplain : ∀ l ∈ lines, l.Plain) {cs : List Statement}
    (htexts : cs.map (·.text) = lines.map (·.text.toList)) (report : ScriptReport) :
    cs.foldl (advance file) (s, report) =
      (t, { report with commands := report.commands + lines.length }) := by
  induction h generalizing cs report with
  | nil =>
    obtain rfl := List.map_eq_nil_iff.mp htexts
    rfl
  | cons hl _ ih =>
    obtain ⟨hhead, htail⟩ := List.forall_mem_cons.mp hplain
    obtain ⟨c, cs, rfl, htext, htexts⟩ := List.map_eq_cons_iff.mp htexts
    have hstep := runCommand_line file hhead htext hl
    rw [List.foldl_cons, advance, hstep, ih htail htexts]
    simp only [ScriptReport.count, List.length_cons, Nat.add_assoc, Nat.add_comm 1]

theorem runScript_runs (file : Nat) {s t : Session} {lines : List Line} (h : Runs s lines t)
    (hplain : ∀ l ∈ lines, l.Plain) :
    s.runScript file (String.join (lines.map (·.text ++ "\n"))) = (t, ⟨lines.length, 0, 0⟩) := by
  have hsplit := split_join (List.forall_mem_map.mpr fun l hl => Line.single (hplain l hl))
  rw [List.map_map, List.map_map] at hsplit
  rw [runScript, runCommands]
  exact (foldl_advance_runs h hplain hsplit {}).trans (by simp)

/-! ### The lines of the clocks -/

section
variable {d : Design} {places : Nat}

structure Declarable (d : Design) (places : Nat) (before cs : List Clock) : Prop where
  valid : ∀ c ∈ cs, c.wave.Valid
  wires : ∀ c ∈ cs, c.wires ≠ [] ∧ c.wires.Nodup
  inside : ∀ c ∈ cs, ∀ w ∈ c.wires, (d.wire? w).isSome
  reads : ∀ c ∈ cs, ∃ w, c.wave.ReadsAs places w
  names : ∀ b ∈ before, ∀ c ∈ cs, b.name ≠ c.name
  free : ∀ b ∈ before, ∀ c ∈ cs, List.Disjoint b.wires c.wires
  distinct : cs.Pairwise fun a b => a.name ≠ b.name ∧ List.Disjoint a.wires b.wires

theorem runs_declarations (hdistinct : d.Distinct) (hnamed : d.Named) {cs : List Clock} {s : Session}
    (hdesign : s.design = d) (hs : s.clocks.Sound d)
    (h : Declarable d places s.clocks.clocks cs) :
    ∃ t cs', Runs s (cs.map (declaration d places)) t ∧ t.design = d ∧ t.options = s.options ∧
      t.exceptions = s.exceptions ∧ t.clocks.clocks = s.clocks.clocks ++ cs' ∧
      List.Forall₂ (Clock.ReadsAs places) cs cs' := by
  induction cs generalizing s with
  | nil => exact ⟨s, [], .nil s, hdesign, rfl, rfl, (List.append_nil _).symm, .nil⟩
  | cons c cs ih =>
    obtain ⟨hvalid, hvalids⟩ := List.forall_mem_cons.mp h.valid
    obtain ⟨⟨hne, hnodup⟩, hwires⟩ := List.forall_mem_cons.mp h.wires
    obtain ⟨hinside, hinsides⟩ := List.forall_mem_cons.mp h.inside
    obtain ⟨⟨w, hw⟩, hreads⟩ := List.forall_mem_cons.mp h.reads
    obtain ⟨hfirst, hrest⟩ := List.pairwise_cons.mp h.distinct
    subst hdesign
    obtain ⟨s', hperform, hdesign, hoptions, hexceptions, hsound, hclocks⟩ :=
      declaration_performs hs hdistinct hnamed hvalid hne hnodup hinside
        (fun b hb => h.names b hb c List.mem_cons_self)
        (fun b hb x hx hxb => h.free b hb c List.mem_cons_self hxb hx) hw
    rw [hdesign] at hsound
    have hnext : Declarable s.design places s'.clocks.clocks cs := by
      refine ⟨hvalids, hwires, hinsides, hreads, ?_, ?_, hrest⟩ <;> rw [hclocks] <;>
        refine List.forall_mem_append.mpr ⟨fun b hb x hx => ?_,
          List.forall_mem_singleton.mpr fun x hx => ?_⟩
      · exact h.names b hb x (List.mem_cons_of_mem c hx)
      · exact (hfirst x hx).1
      · exact h.free b hb x (List.mem_cons_of_mem c hx)
      · exact (hfirst x hx).2
    obtain ⟨t, cs', hruns, htdesign, htoptions, htexceptions, htclocks, hforall⟩ :=
      ih hdesign hsound hnext
    refine ⟨t, ⟨c.name, c.wires, w, .explicit⟩ :: cs', .cons hperform hruns, htdesign,
      htoptions.trans hoptions, htexceptions.trans hexceptions, ?_,
      .cons ⟨rfl, rfl, rfl, hw⟩ hforall⟩
    rw [htclocks, hclocks, List.append_assoc, List.singleton_append]

end

/-! ### The lines of the exceptions -/

theorem runs_restatements {v : View} {places : Nat} {restated : List (Line × TimingException)}
    (h : ∀ r ∈ restated, v.Restates places r.1 r.2) (s : Session) :
    Runs s (restated.map (·.1)) { s with exceptions := s.exceptions ++ restated.map (·.2) } := by
  induction restated generalizing s with
  | nil =>
    rw [List.map_nil, List.map_nil, List.append_nil]
    exact .nil s
  | cons r restated ih =>
    obtain ⟨hr, hrest⟩ := List.forall_mem_cons.mp h
    refine .cons (hr.performs s) ?_
    have hruns := ih hrest (s.addException r.2)
    simpa only [addException, List.append_assoc, List.singleton_append, List.map_cons] using hruns

theorem exists_restatements {v : View} {places : Nat} (h : v.Plain) {es : List TimingException}
    (hrecorded : ∀ e ∈ es, e.Recorded) (huniform : ∀ e ∈ es, ∀ s ∈ e.selections, v.Uniform s)
    (hdelay : ∀ e ∈ es, ∀ x ∈ e.delay?, Number.ReadsBack places x) :
    ∃ restated : List (Line × TimingException), (∀ r ∈ restated, v.Restates places r.1 r.2) ∧
      restated.map (·.1.text) = es.filterMap fun e => (constraintLine v places e).toOption := by
  induction es with
  | nil => exact ⟨[], by simp, rfl⟩
  | cons e es ih =>
    obtain ⟨hfirst, hrecorded⟩ := List.forall_mem_cons.mp hrecorded
    obtain ⟨hends, huniform⟩ := List.forall_mem_cons.mp huniform
    obtain ⟨hreads, hdelay⟩ := List.forall_mem_cons.mp hdelay
    obtain ⟨restated, hrestated, htexts⟩ := ih hrecorded huniform hdelay
    cases htext : constraintLine v places e with
    | error reference => exact ⟨restated, hrestated, by rw [htexts, List.filterMap_cons, htext]; rfl⟩
    | ok text =>
      obtain ⟨l, e', hl, rfl⟩ := View.restates h hfirst hends hreads htext
      refine ⟨(l, e') :: restated, List.forall_mem_cons.mpr ⟨hl, hrestated⟩, ?_⟩
      rw [List.map_cons, htexts, List.filterMap_cons, htext]
      rfl

/-! ### The text -/

def view (s : Session) : View := ⟨s.design, s.writtenClocks false⟩

def lines (s : Session) : List String :=
  (s.writtenClocks false).map (declarationLine s.design s.options.precision) ++
    s.exceptions.filterMap fun e => (constraintLine s.view s.options.precision e).toOption

theorem filterMap_zipIdx {α β : Type} (l : List α) (f : α → Option β) :
    (l.zipIdx.filterMap fun x => f x.1) = l.filterMap f := by
  conv_rhs => rw [← List.zipIdx_map_fst 0 l, List.filterMap_map]
  rfl

theorem filterMap_line? (es : List TimingException) (v : View) (places : Nat) :
    (es.mapIdx fun i e => exceptionEntry v places e (i + 1)).filterMap (·.line?) =
      es.filterMap fun e => (constraintLine v places e).toOption := by
  have hline : ∀ e position,
      (exceptionEntry v places e position).line? = (constraintLine v places e).toOption := by
    intro e position
    unfold exceptionEntry
    split <;> rename_i hline <;> rw [hline] <;> rfl
  rw [List.mapIdx_eq_zipIdx_map, List.filterMap_map, ← filterMap_zipIdx es]
  exact List.filterMap_congr fun _ _ => hline _ _

theorem filterMap_entries (s : Session) (g : Bool) : (s.entries g).filterMap (·.line?) =
    (s.writtenClocks g).map (declarationLine s.design s.options.precision) ++
      s.exceptions.filterMap fun e =>
        (constraintLine ⟨s.design, s.writtenClocks g⟩ s.options.precision e).toOption := by
  rw [entries, Writer.entries, List.filterMap_append, filterMap_line?, List.filterMap_map]
  exact congrArg (· ++ _) (congrFun (List.filterMap_eq_map (f := declarationLine s.design
    s.options.precision)) _)

theorem write_text_entries (s : Session) (g : Bool) : (s.write g).1.text =
    String.join (((s.entries g).filterMap (·.line?)).map (· ++ "\n")) := by
  rw [List.map_filterMap]
  rfl

theorem entries_lines (s : Session) : (s.entries false).filterMap (·.line?) = s.lines :=
  s.filterMap_entries false

theorem write_text (s : Session) :
    (s.write false).1.text = String.join (s.lines.map (· ++ "\n")) := by
  rw [← entries_lines, write_text_entries]

theorem length_lines (es : List Entry) : (es.filterMap (·.line?)).length =
    (Written.ofEntries es).clocks + (Written.ofEntries es).exceptions := by
  simp only [Written.ofEntries]
  induction es with
  | nil => rfl
  | cons e es ih =>
    cases e with
    | clock line =>
      have hline : (Entry.clock line).line? = some line := rfl
      rw [List.filterMap_cons_some hline, List.length_cons, ih, List.countP_cons_of_pos rfl,
        List.countP_cons_of_neg Bool.false_ne_true]
      omega
    | exception line =>
      have hline : (Entry.exception line).line? = some line := rfl
      rw [List.filterMap_cons_some hline, List.length_cons, ih,
        List.countP_cons_of_neg Bool.false_ne_true, List.countP_cons_of_pos rfl]
      omega
    | skipped notice =>
      rw [List.filterMap_cons_none rfl, ih, List.countP_cons_of_neg Bool.false_ne_true,
        List.countP_cons_of_neg Bool.false_ne_true]

/-- Explicit clocks have names that are paths, ends are uniform, and times read back. -/
structure Portable (s : Session) : Prop where
  names : ∀ c ∈ s.writtenClocks false, IsPath c.name
  uniform : ∀ e ∈ s.exceptions, ∀ x ∈ e.selections, s.view.Uniform x
  times : ∀ c ∈ s.writtenClocks false, Number.ReadsBack s.options.precision c.wave.period ∧
    Number.ReadsBack s.options.precision c.wave.rise ∧
    Number.ReadsBack s.options.precision c.wave.fall
  delays : ∀ e ∈ s.exceptions, ∀ x ∈ e.delay?, Number.ReadsBack s.options.precision x

instance : DecidablePred Portable := fun _ =>
  decidable_of_iff (_ ∧ _ ∧ _ ∧ _) ⟨fun h => ⟨h.1, h.2.1, h.2.2.1, h.2.2.2⟩,
    fun h => ⟨h.names, h.uniform, h.times, h.delays⟩⟩

section
variable {d : Design} {s : Session}

theorem writtenClocks_sublist (s : Session) : (s.writtenClocks false).Sublist s.clocks.clocks :=
  List.filter_sublist

theorem Portable.plain (h : s.Portable) (hs : s.Regular d) (hdistinct : d.Distinct)
    (hnamed : d.Named) : s.view.Plain := by
  obtain ⟨rfl, hsound, -⟩ := hs
  exact ⟨hdistinct, hnamed, hsound.names.sublist (s.writtenClocks_sublist.map _), h.names⟩

theorem Portable.declarable (h : s.Portable) (hs : s.Regular d) :
    Declarable d s.options.precision [] (s.writtenClocks false) := by
  have hmem : ∀ c ∈ s.writtenClocks false, c ∈ s.clocks.clocks := fun c hc =>
    s.writtenClocks_sublist.mem hc
  refine ⟨fun c hc => hs.sound.valid c (hmem c hc), fun c hc => hs.sound.wires c (hmem c hc),
    fun c hc => hs.sound.inside c (hmem c hc), fun c hc => ?_, by simp, by simp, ?_⟩
  · obtain ⟨⟨period, hperiod⟩, ⟨rise, hrise⟩, ⟨fall, hfall⟩⟩ := h.times c hc
    exact ⟨⟨period, rise, fall⟩, hperiod, hrise, hfall⟩
  · exact ((List.pairwise_map.mp hs.sound.names).and hs.sound.disjoint).sublist
      s.writtenClocks_sublist

theorem map_of_reads {places : Nat} {cs cs' : List Clock} {α : Type} {f : Clock → α}
    (h : List.Forall₂ (Clock.ReadsAs places) cs cs')
    (hf : ∀ a b : Clock, a.ReadsAs places b → f b = f a) : cs'.map f = cs.map f := by
  have hmap : List.Forall₂ Eq (cs.map f) (cs'.map f) :=
    List.rel_map (fun a b hab => (hf a b hab).symm) h
  rw [List.forall₂_eq_eq_eq] at hmap
  exact hmap.symm

theorem origin_of_reads {places : Nat} {cs cs' : List Clock}
    (h : List.Forall₂ (Clock.ReadsAs places) cs cs') : ∀ c ∈ cs', c.origin = .explicit := by
  induction h with
  | nil => exact List.forall_mem_nil _
  | cons hc _ ih => exact List.forall_mem_cons.mpr ⟨hc.origin, ih⟩

theorem filterMap_restated {v : View} {places : Nat} {restated : List (Line × TimingException)}
    (h : ∀ r ∈ restated, v.Restates places r.1 r.2) :
    (restated.map (·.2)).filterMap (fun e => (constraintLine v places e).toOption) =
      restated.map (·.1.text) := by
  rw [List.filterMap_map, ← List.filterMap_eq_map]
  refine List.filterMap_congr fun r hr => ?_
  rw [Function.comp_apply, (h r hr).writes]
  rfl

theorem writtenClocks_of_explicit (h : ∀ c ∈ s.clocks.clocks, c.origin = .explicit) :
    s.writtenClocks false = s.clocks.clocks :=
  List.filter_eq_self.mpr fun c hc => by simp [Clock.isGenerated, h c hc]

theorem lines_restated {t : Session} {restated : List (Line × TimingException)}
    (hdesign : t.design = s.design) (hprecision : t.options.precision = s.options.precision)
    (hclocks : List.Forall₂ (Clock.ReadsAs s.options.precision) (s.writtenClocks false)
      t.clocks.clocks)
    (hrestated : ∀ r ∈ restated, s.view.Restates s.options.precision r.1 r.2)
    (hexceptions : t.exceptions = restated.map (·.2)) : t.lines =
      (s.writtenClocks false).map (declarationLine s.design s.options.precision) ++
        restated.map (·.1.text) := by
  have hwritten := writtenClocks_of_explicit (origin_of_reads hclocks)
  have hnames : t.view.names = s.view.names := by
    refine View.names_congr hdesign ?_
    rw [view, hwritten]
    exact map_of_reads hclocks fun _ _ hc => hc.name
  have hdeclarations := map_of_reads hclocks fun _ _ hc =>
    declarationLine_congr (d := s.design) hc.name hc.wires hc.wave
  rw [lines, hwritten, hexceptions, hdesign, hprecision, hdeclarations,
    ← filterMap_restated hrestated]
  simp only [View.constraintLine_congr hnames]

theorem exists_rewriting (hs : s.Regular d) (h : s.Portable) (hdistinct : d.Distinct)
    (hnamed : d.Named) (fresh : Session) (hdesign : fresh.design = d)
    (hprecision : fresh.options.precision = s.options.precision) (hclocks : fresh.clocks = {})
    (hexceptions : fresh.exceptions = []) :
    ∃ lines t, (∀ l ∈ lines, l.Plain) ∧ lines.map (·.text) = s.lines ∧ Runs fresh lines t ∧
      List.Forall₂ (Clock.ReadsAs s.options.precision) (s.writtenClocks false) t.clocks.clocks ∧
      t.lines = s.lines := by
  have hdeclarable := h.declarable hs
  obtain ⟨t, cs, hruns, htdesign, htoptions, htexceptions, htclocks, hforall⟩ :=
    runs_declarations (s := fresh) hdistinct hnamed hdesign (hclocks ▸ Registry.Sound.empty)
      (by rw [hclocks]; exact hdeclarable)
  rw [hclocks, List.nil_append] at htclocks
  rw [← htclocks] at hforall
  obtain ⟨restated, hrestated, htexts⟩ :=
    exists_restatements (h.plain hs hdistinct hnamed) hs.recorded h.uniform h.delays
  have hall := hruns.append (runs_restatements hrestated t)
  rw [htexceptions, hexceptions, List.nil_append] at hall
  refine ⟨_, _, ?_, ?_, hall, hforall, ?_⟩
  · refine List.forall_mem_append.mpr ⟨fun l hl => ?_, fun l hl => ?_⟩
    · obtain ⟨c, hc, rfl⟩ := List.mem_map.mp hl
      obtain ⟨w, hw⟩ := hdeclarable.reads c hc
      exact declaration_plain hnamed (h.names c hc) (hdeclarable.wires c hc).1
        (hdeclarable.inside c hc) hw.reread
    · obtain ⟨r, hr, rfl⟩ := List.mem_map.mp hl
      exact (hrestated r hr).plain
  · rw [List.map_append, List.map_map, List.map_map, lines, hs.design]
    exact congrArg₂ (· ++ ·) (List.map_congr_left fun c hc =>
      declaration_text hnamed (h.names c hc)) htexts
  · have hlines := lines_restated (t := { t with exceptions := restated.map (·.2) })
      (htdesign.trans hs.design.symm) (by rw [htoptions, hprecision]) hforall hrestated rfl
    rw [hlines, htexts, lines]

/-- What a portable session writes is carried out in a fresh session without a failure: the explicit
clocks are there again, in their order, and the text is written again. -/
theorem write_read_write {d : Design} (hbuilt : d.Built) (hnamed : d.Named) (actions : List Action)
    (h : (after d actions).Portable) (engine : Engine) (options : WriterSettings)
    (hoptions : options.precision = (after d actions).options.precision) (file : Nat) :
    let s := after d actions
    let written := (s.write false).1
    let (t, report) := ({ design := d, engine, options } : Session).runScript file written.text
    report = ⟨written.clocks + written.exceptions, 0, 0⟩ ∧
      List.Forall₂ Clock.Same (s.writtenClocks false) t.clocks.clocks ∧
      (t.write false).1.text = written.text := by
  have hs := after_regular d actions
  generalize after d actions = s at hs h hoptions
  obtain ⟨lines, t, hplain, htexts, hruns, hforall, hlines⟩ := exists_rewriting
    hs h hbuilt.distinct hnamed { design := d, engine, options } rfl hoptions rfl rfl
  have hscript := runScript_runs file hruns hplain
  have htext : String.join (lines.map (·.text ++ "\n")) = (s.write false).1.text := by
    rw [write_text, ← htexts, List.map_map]
    rfl
  have hcount : lines.length = (s.write false).1.clocks + (s.write false).1.exceptions := by
    rw [← List.length_map (·.text), htexts, ← entries_lines, length_lines]
    rfl
  dsimp only
  rw [← htext, hscript]
  refine ⟨by rw [hcount], hforall.imp fun _ _ hc => hc.same, ?_⟩
  rw [htext, write_text, write_text, hlines]

end

def bench : Design :=
  let d := (Design.declareModule {} "top").2
  let d := (d.declareWire 0 "n1" 1 none).2
  let d := (d.declareWire 0 "n2" 1 none).2
  let d := (d.declareWire 0 "clk" 1 (some .input)).2
  (d.declareWire 0 "d" 1 (some .input)).2.markTop 0

/-- Clocks on a port and on inner wires, and exceptions, of which the last refers to a clock that is
not there. -/
@[irreducible]
def benchActions : List Action := [
  .execute "create_clock" [.word "-period", .word "10", .query ⟨.ports, ["clk"]⟩],
  .declare (.explicit "core/fast" [⟨0, 1⟩, ⟨0, 0⟩] 2.5 (some (0.5, 1.5))),
  .falsePath { start := some [⟨.clocks, ["*"]⟩], stop := some [⟨.pins, ["core/q"]⟩] },
  .execute "set_max_delay" [.word "-1.25", .word "-through", .query ⟨.nets, ["n*", "d"]⟩],
  .clockGroups (some .asynchronous) [["clk"], ["core*"]],
  .falsePath { start := some [⟨.objects, ["slow"]⟩] }]

theorem write_read_write_bench :
    bench.Built ∧ bench.Named ∧ (after bench benchActions).Portable ∧
      ((after bench benchActions).write false).1.clocks = 2 ∧
      ((after bench benchActions).write false).1.exceptions = 3 ∧
      ((after bench benchActions).write false).1.skipped = 1 ∧
      let s := after bench benchActions
      let written := (s.write false).1
      let (t, report) := ({ design := bench } : Session).runScript 0 written.text
      report = ⟨written.clocks + written.exceptions, 0, 0⟩ ∧
        List.Forall₂ Clock.Same (s.writtenClocks false) t.clocks.clocks ∧
        (t.write false).1.text = written.text := by
  have hbuilt : bench.Built :=
    .markTop (.declareWire (.declareWire (.declareWire (.declareWire (.declareModule .empty "top")
      0 "n1" 1 none) 0 "n2" 1 none) 0 "clk" 1 (some .input)) 0 "d" 1 (some .input)) 0
  have hnamed : bench.Named := ⟨by decide, by decide⟩
  have hportable : (after bench benchActions).Portable := by decide +kernel
  have hprecision : 3 = (after bench benchActions).options.precision := by decide +kernel
  refine ⟨hbuilt, hnamed, hportable, by decide +kernel, by decide +kernel, by decide +kernel, ?_⟩
  exact write_read_write hbuilt hnamed benchActions hportable .builtin {} hprecision 0

end Session
end ClockTree
