import ClockTree.Cli.Run
import ClockTree.Proofs.Cli.Course
import ClockTree.Proofs.Command.Failures
import Mathlib.Data.List.Forall2

/-!
# The stages of a run

A run reads its configuration and its netlist, declares the configured clocks, runs the scripts and
propagates. Each stage only reads and tells, and what it ends with is stated in terms of the files
in the folder: what is read, and what becomes of the commands that the scripts hold.
-/
namespace ClockTree.Cli
open Job

/-! ## What leaves nothing behind -/

theorem readConfigFile_passive (path shown : String) : (readConfigFile path shown).Passive :=
  Passive.bind (fun _ => trivial) fun _ => orFail_passive _ _

theorem readConfig_passive (w : Surroundings) (i : Invocation) : (readConfig w i).Passive := by
  unfold readConfig
  split
  · exact readConfigFile_passive _ _
  · refine Passive.bind (fun _ => trivial) fun found => ?_
    cases found with
    | true => exact readConfigFile_passive _ _
    | false => trivial

theorem readNetlist_passive (i : Invocation) : (readNetlist i).Passive :=
  Passive.bind (fun _ => trivial) fun _ => orFail_passive _ _

theorem note_passive (i : Invocation) (line : String) : (note i line).Passive := by
  unfold note
  split <;> trivial

theorem note_still (i : Invocation) (line : String) (f : Folder) :
    (note i line).course f = .still f (.ok ()) := by
  unfold note
  split <;> rfl

theorem course_note {α : Type} (i : Invocation) (line : String) (k : Unit → Job α) (f : Folder) :
    (note i line >>= k).course f = (k ()).course f :=
  course_bind_of_still (note_still i line f) k

namespace Progress

theorem runScript_passive (p : Progress) (path : String) : (p.runScript path).Passive :=
  Passive.bind (fun _ => trivial) fun _ => Passive.bind (orFail_passive _ _) fun _ => trivial

theorem foldlM_runScript_passive (paths : List String) (p : Progress) :
    (paths.foldlM runScript p).Passive := by
  induction paths generalizing p with
  | nil => trivial
  | cons path paths ih =>
    rw [List.foldlM_cons]
    exact (p.runScript_passive path).bind ih

theorem propagate_passive (p : Progress) (i : Invocation) : (p.propagate i).Passive := by
  unfold propagate
  split
  · trivial
  · split
    · exact (note_passive i _).bind fun _ => trivial
    · exact (orFail_passive _ _).bind fun _ => trivial

end Progress

theorem constrain_passive (i : Invocation) (config : Config) (s : Session) :
    (constrain i config s).Passive :=
  (orFail_passive _ _).bind fun _ => (Progress.foldlM_runScript_passive _ _).bind fun p =>
    p.propagate_passive i

/-! ## How the stages end -/

/-- The configuration that a path leads to, or else the file in the working directory, if any. -/
inductive LoadsConfig (f : Folder) : Option String → Config → Prop where
  | given {path text : String} {config : Config} (hread : f.read path = .ok text)
      (h : Config.read text = .ok config) : LoadsConfig f (some path) config
  | found {text : String} {config : Config} (hread : f.read configName = .ok text)
      (h : Config.read text = .ok config) : LoadsConfig f none config
  | absent (h : (f.read configName).isOk = false) : LoadsConfig f none {}

variable {f : Folder} {w : Surroundings} {i : Invocation}

theorem result_orFail {ε α : Type} {message : ε → String} {r : Except ε α} {a : α} :
    ((orFail message r).course f).result = .ok a ↔ r = .ok a := by
  cases r with
  | error e => exact ⟨nofun, nofun⟩
  | ok b => exact ⟨fun h => congrArg Except.ok (Except.ok.inj h),
      fun h => congrArg Except.ok (Except.ok.inj h)⟩

theorem result_readConfigFile {path shown : String} {config : Config} :
    ((readConfigFile path shown).course f).result = .ok config ↔
      ∃ text, f.read path = .ok text ∧ Config.read text = .ok config := by
  refine result_orFail.trans ?_
  cases f.read path with
  | error reason => exact ⟨nofun, nofun⟩
  | ok text => simp

theorem result_readConfig {config : Config} :
    ((readConfig w i).course f).result = .ok config ↔ LoadsConfig f i.config config := by
  unfold readConfig
  cases i.config with
  | some path =>
    refine result_readConfigFile.trans ⟨fun ⟨text, hread, h⟩ => .given hread h, fun h => ?_⟩
    cases h with
    | given hread h => exact ⟨_, hread, h⟩
  | none =>
    change ((if (f.read configName).isOk = true then readConfigFile configName _
      else Job.done {} : Job Config).course f).result = .ok config ↔ _
    cases hfound : (f.read configName).isOk with
    | true =>
      refine result_readConfigFile.trans ⟨fun ⟨text, hread, h⟩ => .found hread h, fun h => ?_⟩
      cases h with
      | found hread h => exact ⟨_, hread, h⟩
      | absent h => cases hfound.symm.trans h
    | false =>
      refine ⟨fun h => ?_, fun h => ?_⟩
      · obtain rfl := Except.ok.inj h
        exact .absent hfound
      · cases h with
        | found hread h =>
          rw [hread] at hfound
          cases hfound
        | absent h => rfl

theorem result_readNetlist {design : Design} :
    ((readNetlist i).course f).result = .ok design ↔
      ∃ text, f.read i.netlist = .ok text ∧ Design.read text = .ok design := by
  refine result_orFail.trans ?_
  cases f.read i.netlist with
  | error reason => exact ⟨nofun, nofun⟩
  | ok text => simp

namespace Progress

def script (p : Progress) (source : SourceFile) : Progress :=
  let (file, sources) := p.sources.add source
  let (session, summary) := p.session.runScript file source.content
  { p with
    session, sources
    scripts := ⟨p.scripts.commands + summary.commands, p.scripts.failed + summary.failed,
      p.scripts.skipped + summary.skipped⟩ }

def outcomes : Progress → List SourceFile → List ClockTree.Outcome
  | _, [] => []
  | p, source :: sources =>
    p.session.outcomes (p.sources.add source).1 (Script.split source.content) ++
      outcomes (p.script source) sources

variable {p q : Progress}

theorem script_counts (p : Progress) (source : SourceFile) :
    (p.script source).session.log.errors = p.session.log.errors +
        (p.session.outcomes (p.sources.add source).1 (Script.split source.content)).count .failed ∧
      (p.script source).scripts.failed = p.scripts.failed +
        (p.session.outcomes (p.sources.add source).1 (Script.split source.content)).count
          .failed := by
  obtain ⟨herrors, hfailed⟩ := Session.runCommands_counts (p.sources.add source).1 p.session
    (Script.split source.content)
  exact ⟨herrors, congrArg (p.scripts.failed + ·) hfailed⟩

theorem scripts_counts (p : Progress) (sources : List SourceFile) :
    (sources.foldl script p).session.log.errors =
        p.session.log.errors + (p.outcomes sources).count .failed ∧
      (sources.foldl script p).scripts.failed =
        p.scripts.failed + (p.outcomes sources).count .failed := by
  induction sources generalizing p with
  | nil => exact ⟨rfl, rfl⟩
  | cons source sources ih =>
    obtain ⟨herrors, hfailed⟩ := ih (p.script source)
    obtain ⟨herror, hfail⟩ := p.script_counts source
    rw [List.foldl_cons, outcomes, List.count_append, herrors, hfailed, herror, hfail]
    exact ⟨Nat.add_assoc _ _ _, Nat.add_assoc _ _ _⟩

theorem result_runScript {path : String} :
    ((p.runScript path).course f).result = .ok q ↔
      ∃ text, f.read path = .ok text ∧ p.script ⟨path, text⟩ = q := by
  change ((Job.orFail _ (f.read path) >>= _).course f).result = .ok q ↔ _
  cases f.read path with
  | error reason => exact ⟨nofun, nofun⟩
  | ok text =>
    refine ⟨fun h => ⟨text, rfl, Except.ok.inj h⟩, fun ⟨text', htext, hq⟩ => ?_⟩
    obtain rfl := Except.ok.inj htext
    exact congrArg Except.ok hq

def Reads (f : Folder) (paths : List String) (sources : List SourceFile) : Prop :=
  List.Forall₂ (fun path source => source.name = path ∧ f.read path = .ok source.content)
    paths sources

theorem result_runScripts {paths : List String} :
    ((paths.foldlM runScript p).course f).result = .ok q ↔
      ∃ sources, Reads f paths sources ∧ sources.foldl script p = q := by
  induction paths generalizing p with
  | nil =>
    refine ⟨fun h => ⟨[], .nil, Except.ok.inj h⟩, fun ⟨sources, hreads, hq⟩ => ?_⟩
    cases hreads
    exact congrArg Except.ok hq
  | cons path paths ih =>
    rw [List.foldlM_cons, (p.runScript_passive path).result_bind]
    constructor
    · rintro ⟨p', hscript, hrest⟩
      obtain ⟨text, htext, rfl⟩ := result_runScript.mp hscript
      obtain ⟨sources, hreads, hq⟩ := ih.mp hrest
      exact ⟨⟨path, text⟩ :: sources, .cons ⟨rfl, htext⟩ hreads, hq⟩
    · rintro ⟨sources, hreads, hq⟩
      cases hreads with
      | @cons _ source _ sources hsource hreads =>
        obtain ⟨rfl, htext⟩ := hsource
        exact ⟨_, result_runScript.mpr ⟨source.content, htext, rfl⟩,
          ih.mpr ⟨sources, hreads, hq⟩⟩

def Propagates (p : Progress) (i : Invocation) : Prop :=
  i.propagate = true → p.session.clocks.isEmpty = false → ∃ r, p.session.propagate = .ok r

theorem exists_propagate (h : Propagates p i) :
    ∃ q, ((p.propagate i).course f).result = .ok q := by
  unfold propagate
  cases hon : i.propagate with
  | false => exact ⟨p, rfl⟩
  | true =>
    cases hclocks : p.session.clocks.isEmpty with
    | true => exact ⟨p, congrArg Course.result (course_note i _ _ f)⟩
    | false =>
      obtain ⟨r, hr⟩ := h hon hclocks
      rw [hr]
      exact ⟨_, rfl⟩

theorem of_propagate (h : ((p.propagate i).course f).result = .ok q) : Propagates p i ∧
    q.session.log.errors = p.session.log.errors ∧ q.scripts = p.scripts := by
  unfold propagate at h
  split at h
  · rename_i hoff
    cases h
    exact ⟨fun hon => absurd hoff (by simp [hon]), rfl, rfl⟩
  · split at h
    · rename_i hidle
      rw [course_note] at h
      cases h
      exact ⟨fun _ hclocks => absurd hidle (Bool.eq_false_iff.mp hclocks), rfl, rfl⟩
    · cases hpropagate : p.session.propagate with
      | error e =>
        rw [hpropagate] at h
        cases h
      | ok out =>
        rw [hpropagate] at h
        cases h
        exact ⟨fun _ _ => ⟨out, hpropagate⟩, Session.errors_propagate hpropagate, rfl⟩

end Progress

def openSession (config : Config) (design : Design) : Session :=
  { design, engine := config.engine, options := config.options }

def declared (config : Config) (design : Design) (clocks : List (String × ConfiguredClock)) :
    Progress :=
  let r := (openSession config design).declareAll clocks
  { session := r.1, configured := r.2.toOption.getD 0 }

theorem result_constrain {config : Config} {design : Design} {q : Progress} :
    ((constrain i config (openSession config design)).course f).result = .ok q ↔
      (∃ n, ((openSession config design).declareAll config.clocks).2 = .ok n) ∧
      ∃ sources, Progress.Reads f i.scripts sources ∧
        ((Progress.propagate (sources.foldl Progress.script
          (declared config design config.clocks)) i).course f).result = .ok q := by
  unfold constrain declared
  generalize (openSession config design).declareAll config.clocks = r
  obtain ⟨s, r⟩ := r
  cases r with
  | error e => exact ⟨nofun, nofun⟩
  | ok n =>
    change ((_ >>= fun p : Progress => p.propagate i).course f).result = .ok q ↔ _
    rw [(Progress.foldlM_runScript_passive _ _).result_bind]
    constructor
    · rintro ⟨p, hscripts, hq⟩
      obtain ⟨sources, hreads, rfl⟩ := Progress.result_runScripts.mp hscripts
      exact ⟨⟨n, rfl⟩, sources, hreads, hq⟩
    · rintro ⟨-, sources, hreads, hq⟩
      exact ⟨_, Progress.result_runScripts.mpr ⟨sources, hreads, rfl⟩, hq⟩

theorem errors_declared (config : Config) (design : Design)
    (clocks : List (String × ConfiguredClock)) :
    (declared config design clocks).session.log.errors = 0 :=
  (openSession config design).errors_declareAll clocks

end ClockTree.Cli
