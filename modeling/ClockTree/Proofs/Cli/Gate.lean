import Mathlib
import ClockTree.Proofs.Cli.Stages
import ClockTree.Proofs.Netlist.Built

/-!
# When constraints are written

A run writes constraints, and succeeds, exactly if everything that it reads can be read, all
configured clocks are declared, propagation succeeds where it takes place, and no command of a
script fails. The errors in the log and the failures that the scripts report are two accounts of
the same commands.
-/
namespace ClockTree.Cli
open Job

variable {f : Folder} {w : Surroundings} {i : Invocation}

/-- What a run has to get through before it may write. -/
structure Clears (f : Folder) (i : Invocation) (config : Config) (design : Design)
    (sources : List SourceFile) : Prop where
  configured : LoadsConfig f i.config config
  loaded : ∃ text, f.read i.netlist = .ok text ∧ Design.read text = .ok design
  read : Progress.Reads f i.scripts sources
  clocks : ∃ n, ((openSession config design).declareAll config.clocks).2 = .ok n
  commands : .failed ∉ (declared config design config.clocks).outcomes sources
  propagation : (sources.foldl Progress.script (declared config design config.clocks)).Propagates i

theorem failed_constrain {config : Config} {design : Design} {sources : List SourceFile}
    {q : Progress} (h : ((Progress.propagate (sources.foldl Progress.script
      (declared config design config.clocks)) i).course f).result = .ok q) :
    q.failed = true ↔ .failed ∈ (declared config design config.clocks).outcomes sources := by
  obtain ⟨-, herrors, hscripts⟩ := Progress.of_propagate h
  obtain ⟨hcounted, hfailed⟩ := (declared config design config.clocks).scripts_counts sources
  rw [hcounted, errors_declared, Nat.zero_add] at herrors
  have hstart : (declared config design config.clocks).scripts.failed = 0 := rfl
  rw [← hscripts, hstart, Nat.zero_add] at hfailed
  rw [Progress.failed, DiagnosticLog.sawError, Bool.or_eq_true, decide_eq_true_iff,
    decide_eq_true_iff, herrors, hfailed, List.count_pos_iff, or_self]

def prepare (w : Surroundings) (i : Invocation) : Job (Config × Progress) := do
  let config ← readConfig w i
  let design ← readNetlist i
  note i ("   Reading " ++ i.netlist ++ " (" ++ toString design.totalCells ++ " cell(s))")
  let p ← constrain i config (openSession config design)
  return (config, p)

theorem run_write {output : Option String} {includeGenerated : Bool}
    (hsub : i.subcommand = .write output includeGenerated) :
    run w i = (do
      let (config, p) ← prepare w i
      let p ← if p.failed then pure p
        else p.write i output (includeGenerated || config.options.includeGenerated)
      p.finish w i) := by
  simp only [run, hsub, prepare, Job.bind_assoc]
  rfl

theorem prepare_passive (w : Surroundings) (i : Invocation) : (prepare w i).Passive :=
  (readConfig_passive w i).bind fun config => (readNetlist_passive i).bind fun _ =>
    (note_passive i _).bind fun _ => (constrain_passive i config _).bind fun _ => trivial

theorem result_prepare {config : Config} {q : Progress} :
    ((prepare w i).course f).result = .ok (config, q) ↔
      ((readConfig w i).course f).result = .ok config ∧ ∃ design,
        ((readNetlist i).course f).result = .ok design ∧
        ((constrain i config (openSession config design)).course f).result = .ok q := by
  constructor
  · intro h
    obtain ⟨config', hconfig, h⟩ := (readConfig_passive w i).result_bind.mp h
    obtain ⟨design, hdesign, h⟩ := (readNetlist_passive i).result_bind.mp h
    rw [course_note] at h
    obtain ⟨q', hq, h⟩ := (constrain_passive i config' _).result_bind.mp h
    obtain ⟨rfl, rfl⟩ := Prod.mk.inj (Except.ok.inj h)
    exact ⟨hconfig, design, hdesign, hq⟩
  · rintro ⟨hconfig, design, hdesign, hq⟩
    refine (readConfig_passive w i).result_bind.mpr ⟨config, hconfig, ?_⟩
    refine (readNetlist_passive i).result_bind.mpr ⟨design, hdesign, ?_⟩
    rw [course_note]
    exact (constrain_passive i config _).result_bind.mpr ⟨q, hq, rfl⟩

theorem Clears.prepare {config : Config} {design : Design} {sources : List SourceFile}
    (h : Clears f i config design sources) (w : Surroundings) :
    ∃ q, ((prepare w i).course f).result = .ok (config, q) ∧ q.failed = false := by
  obtain ⟨q, hq⟩ := Progress.exists_propagate (f := f) h.propagation
  refine ⟨q, result_prepare.mpr ⟨result_readConfig.mpr h.configured, design,
    result_readNetlist.mpr h.loaded, result_constrain.mpr ⟨h.clocks, sources, h.read, hq⟩⟩, ?_⟩
  exact Bool.eq_false_iff.mpr fun hfailed => h.commands ((failed_constrain hq).mp hfailed)

theorem clears_of_prepare {config : Config} {q : Progress}
    (h : ((prepare w i).course f).result = .ok (config, q)) (hpassed : q.failed = false) :
    ∃ design sources, Clears f i config design sources ∧
      ((constrain i config (openSession config design)).course f).result = .ok q := by
  obtain ⟨hconfig, design, hdesign, hconstrain⟩ := result_prepare.mp h
  obtain ⟨hclocks, sources, hreads, hq⟩ := result_constrain.mp hconstrain
  refine ⟨design, sources, ⟨result_readConfig.mp hconfig, result_readNetlist.mp hdesign, hreads,
    hclocks, fun hmem => ?_, (Progress.of_propagate hq).1⟩, hconstrain⟩
  cases hpassed.symm.trans ((failed_constrain hq).mpr hmem)

theorem course_print {α : Type} (text : String) (k : Unit → Job α) (f : Folder) :
    (print text >>= k).course f = ((k ()).course f).behind [text] [] := rfl

theorem orFail_ok_bind {ε α β : Type} (message : ε → String) (a : α) (k : α → Job β) :
    (orFail message (.ok a) >>= k) = k a := rfl

theorem course_createFile {α : Type} {path text : String} {g : Folder}
    (h : f.create path text = .ok g) (k : Except String Unit → Job α) :
    (createFile path text >>= k).course f = ((k (.ok ())).course g).behind [] [(path, text)] := by
  change Job.course f (.create path text k) = _
  rw [Job.course, h]

theorem Progress.course_write (p : Progress) {output : Option String} (includeGenerated : Bool)
    (hcreate : ∀ path ∈ output, ∀ text, ∃ g, f.create path text = .ok g) :
    let c := (p.write i output includeGenerated).course f
    c.result = .ok { p with session := (p.session.write includeGenerated).2 } ∧
      c.emitted = [(p.session.write includeGenerated).1.text] := by
  unfold Progress.write
  generalize p.session.write includeGenerated = r
  obtain ⟨written, session⟩ := r
  dsimp only
  generalize p.propagation.bind (·.delayTarget) = target
  cases output with
  | none =>
    rw [course_print, course_note]
    cases target with
    | none => exact ⟨rfl, rfl⟩
    | some t =>
      dsimp only
      rw [course_note]
      exact ⟨rfl, rfl⟩
  | some path =>
    obtain ⟨g, hg⟩ := hcreate path rfl written.text
    rw [course_createFile hg, orFail_ok_bind, course_note, course_note]
    cases target with
    | none => exact ⟨rfl, rfl⟩
    | some t =>
      dsimp only
      rw [course_note]
      exact ⟨rfl, rfl⟩

/-- The errors in the log and the failures that scripts report are the commands that failed, at
every moment of the scripts and after whatever follows them. -/
def Accounted (p : Progress) : Prop :=
  ∀ sources file cs,
    let q := sources.foldl Progress.script p
    let failures := (p.outcomes sources ++ q.session.outcomes file cs).count .failed
    let s := (q.session.runCommands file cs).1
    s.log.errors = failures ∧
      q.scripts.failed + (q.session.runCommands file cs).2.failed = failures ∧
      (∀ report s', s.propagate = .ok (report, s') → s'.log.errors = failures) ∧
      ∀ includeGenerated, (s.write includeGenerated).2.log.errors = failures

theorem accounted_declared (config : Config) (design : Design)
    (clocks : List (String × ConfiguredClock)) : Accounted (declared config design clocks) := by
  intro sources file cs
  dsimp only
  obtain ⟨hscripts, hreport⟩ := (declared config design clocks).scripts_counts sources
  generalize sources.foldl Progress.script (declared config design clocks) = q at *
  obtain ⟨hcommands, hfailed⟩ := q.session.runCommands_counts file cs
  have hstart : (declared config design clocks).scripts.failed = 0 := rfl
  rw [errors_declared, Nat.zero_add] at hscripts
  rw [hstart, Nat.zero_add] at hreport
  rw [hscripts, ← List.count_append] at hcommands
  refine ⟨hcommands, ?_, fun report s' h => (Session.errors_propagate h).trans hcommands,
    fun g => (Session.errors_write _ g).trans hcommands⟩
  rw [hreport, hfailed, List.count_append]

theorem course_forM {α : Type} {tell : α → Job Unit}
    (h : ∀ a, (tell a).course f = .still f (.ok ())) (as : List α) :
    (as.forM tell).course f = .still f (.ok ()) := by
  induction as with
  | nil => rfl
  | cons a as ih => exact (course_bind_of_still (h a) _).trans ih

theorem Progress.course_finish (p : Progress) (w : Surroundings) (i : Invocation) (f : Folder) :
    (p.finish w i).course f = .still f (.ok p.exitCode) := by
  have hreport : (p.report w i).course f = .still f (.ok ()) := by
    unfold Progress.report
    cases i.format with
    | text =>
      refine course_forM (fun d => ?_) _
      rfl
    | json => rfl
  have hsummary : (p.summarize i).course f = .still f (.ok ()) := by
    unfold Progress.summarize
    rw [course_note]
    cases p.propagation with
    | some report => exact (course_note i _ _ f).trans (note_still i _ f)
    | none => exact note_still i _ f
  exact (course_bind_of_still hreport _).trans (course_bind_of_still hsummary _)

theorem course_write_finish {p : Progress} (hpassed : p.failed = false) {output : Option String}
    (includeGenerated : Bool)
    (hcreate : ∀ path ∈ output, ∀ text, ∃ g, f.create path text = .ok g) :
    let c := (do let p ← p.write i output includeGenerated; p.finish w i : Job Nat).course f
    c.code = 0 ∧ c.emitted = [(p.session.write includeGenerated).1.text] := by
  obtain ⟨hresult, hemitted⟩ := p.course_write (i := i) includeGenerated hcreate
  have hpassed' : Progress.failed { p with session := (p.session.write includeGenerated).2 } =
      false := by
    rw [← hpassed, Progress.failed, Progress.failed, DiagnosticLog.sawError,
      DiagnosticLog.sawError, Session.errors_write]
  dsimp only
  rw [course_bind, Course.andThen, hresult]
  dsimp only
  rw [Progress.course_finish, Progress.exitCode, hpassed', Course.emitted_behind_still]
  exact ⟨rfl, hemitted⟩

theorem run_write_cases {output : Option String} {includeGenerated : Bool}
    (hsub : i.subcommand = .write output includeGenerated)
    (hcreate : ∀ path ∈ output, ∀ text, ∃ g, f.create path text = .ok g) :
    let c := (run w i).course f
    (∃ config design sources q, Clears f i config design sources ∧
        ((constrain i config (openSession config design)).course f).result = .ok q ∧ c.code = 0 ∧
        c.emitted =
          [(q.session.write (includeGenerated || config.options.includeGenerated)).1.text]) ∨
      ((¬∃ config design sources, Clears f i config design sources) ∧ c.code = 1 ∧
        c.emitted = []) := by
  rw [run_write hsub, (prepare_passive w i).course_bind]
  cases hprepare : ((prepare w i).course f).result with
  | error message =>
    refine Or.inr ⟨fun ⟨config, design, sources, h⟩ => ?_, rfl, rfl⟩
    obtain ⟨q, hq, -⟩ := h.prepare w
    cases hprepare.symm.trans hq
  | ok out =>
    obtain ⟨config, q⟩ := out
    dsimp only
    cases hfailed : q.failed with
    | true =>
      refine Or.inr ⟨fun ⟨config', design, sources, h⟩ => ?_, ?_⟩
      · obtain ⟨q', hq, hpassed⟩ := h.prepare w
        obtain ⟨-, rfl⟩ := Prod.mk.inj (Except.ok.inj (hprepare.symm.trans hq))
        cases hfailed.symm.trans hpassed
      · change ((q.finish w i).course f).code = 1 ∧ ((q.finish w i).course f).emitted = []
        rw [q.course_finish, Progress.exitCode, hfailed]
        exact ⟨rfl, rfl⟩
    | false =>
      obtain ⟨design, sources, hclears, hq⟩ := clears_of_prepare hprepare hfailed
      obtain ⟨hcode, hemitted⟩ := course_write_finish (w := w) (i := i) hfailed
        (includeGenerated || config.options.includeGenerated) hcreate
      exact Or.inl ⟨config, design, sources, q, hclears, hq, hcode, hemitted⟩

theorem write_gate {output : Option String} {includeGenerated : Bool}
    (hsub : i.subcommand = .write output includeGenerated)
    (hcreate : ∀ path ∈ output, ∀ text, ∃ g, f.create path text = .ok g) :
    let o := (run w i).over f
    let emitted := ((run w i).course f).emitted
    (emitted ≠ [] ↔ o.code = 0) ∧
      (o.code = 0 ↔ ∃ config design sources, Clears f i config design sources) ∧
      (o.code = 0 ∨ o.code = 1) ∧
      (emitted ≠ [] → ∃ config design sources q, Clears f i config design sources ∧
        ((constrain i config (openSession config design)).course f).result = .ok q ∧
        emitted =
          [(q.session.write (includeGenerated || config.options.includeGenerated)).1.text]) ∧
      ∀ config design clocks, Accounted (declared config design clocks) := by
  obtain ⟨hcode, -, -⟩ := over_course (run w i) f
  dsimp only
  rw [hcode]
  obtain ⟨config, design, sources, q, hclears, hq, hzero, hemitted⟩ | ⟨hblocked, hone, hemitted⟩ :=
    run_write_cases (w := w) hsub hcreate
  · rw [hzero, hemitted]
    exact ⟨by simp, iff_of_true rfl ⟨config, design, sources, hclears⟩, Or.inl rfl,
      fun _ => ⟨config, design, sources, q, hclears, hq, rfl⟩, accounted_declared⟩
  · rw [hone, hemitted]
    exact ⟨by simp, iff_of_false nofun hblocked, Or.inr rfl, fun h => absurd rfl h,
      accounted_declared⟩

def portedText : String := "\x7b\"modules\":\x7b\"top\":\x7b\"attributes\":\x7b\"top\":1\x7d," ++
  "\"ports\":\x7b\"clk\":\x7b\"direction\":\"input\",\"bits\":[2]\x7d\x7d\x7d\x7d\x7d"

def ported : Design := .single [⟨"clk", 1, some .input⟩] []

def portedScript : String := "set_false_path -from [get_ports clk]\nset_units -time ns\n"

def portedFolder : Folder where
  files := [(⟨.above 0, ["c"]⟩, ""), (⟨.above 0, ["n"]⟩, portedText),
    (⟨.above 0, ["s"]⟩, portedScript)]

def portedInvocation : Invocation where
  quiet := true
  verbose := false
  color := .never
  config := some "c"
  netlist := "n"
  scripts := ["s"]
  propagate := true
  format := .text
  subcommand := .write (some "o") false

theorem ported_creates (text : String) : ∃ g, portedFolder.create "o" text = .ok g := by
  have hlocate : portedFolder.locate "o" = .ok (some ⟨.above 0, ["o"]⟩) := by cbv
  refine ⟨portedFolder.put ⟨.above 0, ["o"]⟩ text, ?_⟩
  rw [Folder.create, hlocate]
  rfl

theorem ported_clears :
    Clears portedFolder portedInvocation {} ported [⟨"s", portedScript⟩] where
  configured := .given (by cbv) (by cbv : Config.read "" = .ok {})
  loaded := ⟨portedText, by cbv, by cbv⟩
  read := .cons ⟨rfl, by cbv⟩ .nil
  clocks := ⟨0, rfl⟩
  commands := by decide +kernel
  propagation := by
    intro _ hclocks
    have hnone : ((declared {} ported []).script ⟨"s", portedScript⟩).session.clocks.isEmpty =
        true := by decide +kernel
    cases hclocks.symm.trans hnone

theorem write_gate_ported :
    portedInvocation.subcommand = .write (some "o") false ∧
      (∀ path ∈ some "o", ∀ text, ∃ g, portedFolder.create path text = .ok g) ∧
      ((run ⟨"/", false⟩ portedInvocation).over portedFolder).code = 0 ∧
      ((run ⟨"/", false⟩ portedInvocation).course portedFolder).emitted ≠ [] := by
  have hcreate : ∀ path ∈ some "o", ∀ text, ∃ g, portedFolder.create path text = .ok g := by
    rintro path ⟨⟩ text
    exact ported_creates text
  obtain ⟨hemitted, hclears, -⟩ := write_gate (f := portedFolder) (w := ⟨"/", false⟩)
    (i := portedInvocation) rfl hcreate
  have hcode := hclears.mpr ⟨_, _, _, ported_clears⟩
  exact ⟨rfl, hcreate, hcode, hemitted.mpr hcode⟩

end ClockTree.Cli
