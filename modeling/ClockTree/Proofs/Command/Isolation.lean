import ClockTree.Command.Script

/-!
# Failing commands are isolated

A command reads nothing from the log, and when it fails it changes nothing but the log. A script
therefore ends in the session that its successful commands alone would have made.
-/
namespace ClockTree.Session
open Command

def quiet (s : Session) : Session := { s with log := {} }

/-- The session after steps that give a new one only when they succeed. -/
def adopt {α : Type} (s : Session) : Except Fault (α × Session) → Session × Except Fault α
  | .error e => (s, .error e)
  | .ok (a, s) => (s, .ok a)

/-- An action that does not read the log and that changes nothing but the log when it fails. -/
structure Isolated {α : Type} (f : Session → Session × Except Fault α) : Prop where
  blind : ∀ s, (f s.quiet).1.quiet = (f s).1.quiet ∧ (f s.quiet).2 = (f s).2
  atomic : ∀ s e, (f s).2 = .error e → (f s).1.quiet = s.quiet

namespace Isolated
variable {α β : Type}

theorem query {f : Session → Except Fault α} (h : ∀ s : Session, f s.quiet = f s) :
    Isolated fun s => (s, f s) where
  blind s := ⟨rfl, h s⟩
  atomic _ _ _ := rfl

theorem map {f : Session → Session × Except Fault α} (h : Isolated f) (g : α → β) :
    Isolated fun s => ((f s).1, (f s).2.map g) where
  blind s := ⟨(h.blind s).1, congrArg (Except.map g) (h.blind s).2⟩
  atomic s e he := by
    cases hs : (f s).2 with
    | error e' => exact h.atomic s e' hs
    | ok a => simp [hs, Except.map] at he

theorem agree {f : Session → Session × Except Fault α} (h : Isolated f) {s t : Session}
    (hst : s.quiet = t.quiet) : (f s).1.quiet = (f t).1.quiet ∧ (f s).2 = (f t).2 := by
  rw [← (h.blind s).1, ← (h.blind s).2, hst]
  exact h.blind t

end Isolated

namespace Isolated
variable {α β : Type}

theorem reported {f : Session → Session × Except Fault α} (h : Isolated f)
    (ds : Session → List Diagnostic) (hds : ∀ s : Session, ds s.quiet = ds s) :
    Isolated fun s => f (s.report (ds s)) where
  blind s := h.agree (by rw [hds s]; rfl)
  atomic s e he := h.atomic _ e he

theorem branch {σ : Type} {f : σ → Session → Session × Except Fault α} (h : ∀ x, Isolated (f x))
    (g : Session → σ) (hg : ∀ s : Session, g s.quiet = g s) : Isolated fun s => f (g s) s where
  blind s := by
    rw [hg s]
    exact (h (g s)).blind s
  atomic s e he := (h (g s)).atomic s e he

theorem attempt {f : Session → Except Fault (α × Session)}
    (h : ∀ s : Session, (f s.quiet).map (Prod.map id quiet) = (f s).map (Prod.map id quiet)) :
    Isolated fun s => s.adopt (f s) where
  blind s := by
    have hs := h s
    cases hq : f s.quiet with
    | error e =>
      cases hf : f s with
      | error e' =>
        simp only [hq, hf, Except.map, Except.error.injEq] at hs
        subst hs
        exact ⟨rfl, rfl⟩
      | ok out => simp [hq, hf, Except.map] at hs
    | ok out =>
      cases hf : f s with
      | error e' => simp [hq, hf, Except.map] at hs
      | ok out' =>
        simp only [hq, hf, Except.map, Prod.map, Except.ok.injEq, Prod.mk.injEq] at hs
        exact ⟨hs.2, congrArg Except.ok hs.1⟩
  atomic s e he := by
    cases hf : f s with
    | error e' => rfl
    | ok out => simp [hf, adopt] at he

theorem congr {f g : Session → Session × Except Fault α} (h : Isolated f) (hfg : ∀ s, g s = f s) :
    Isolated g := by
  rwa [funext hfg]

end Isolated

theorem declare_quiet (s : Session) (spec : ClockDeclaration) :
    (s.quiet.declare spec).map (Prod.map id quiet) = (s.declare spec).map (Prod.map id quiet) := by
  have hclocks : s.quiet.clocks.add s.quiet.design spec = s.clocks.add s.design spec := rfl
  unfold declare
  rw [hclocks]
  cases s.clocks.add s.design spec <;> rfl

theorem propagate_quiet (s : Session) :
    s.quiet.propagate.map (Prod.map id quiet) = s.propagate.map (Prod.map id quiet) := by
  have hrun : s.quiet.engine.run s.quiet.design s.quiet.clocks = s.engine.run s.design s.clocks :=
    rfl
  unfold propagate
  rw [hrun]
  cases s.engine.run s.design s.clocks <;> rfl

theorem declaration_isolated (o : CreateClock.Options) (period : Float) (found : List WireKey) :
    Isolated fun s : Session => match o.spec s.design period found >>= s.declare with
      | .error e => (s, .error e)
      | .ok (_, s) => (s, .ok ()) := by
  have hadopt : Isolated fun s : Session =>
      s.adopt (o.spec s.design period found >>= s.declare) := by
    refine .attempt fun s => ?_
    have hspec : o.spec s.quiet.design period found = o.spec s.design period found := rfl
    rw [hspec]
    cases o.spec s.design period found with
    | error e => rfl
    | ok spec => exact declare_quiet s spec
  refine (hadopt.map fun _ => ()).congr fun s => ?_
  cases o.spec s.design period found >>= s.declare <;> rfl

theorem searched_isolated (o : CreateClock.Options) (period : Float) (found : CreateClock.Found) :
    Isolated fun s : Session => match found.fault with
      | some e => (s, .error e)
      | none => match o.spec s.design period found.wires >>= s.declare with
        | .error e => (s, .error e)
        | .ok (_, s) => (s, .ok ()) := by
  cases found.fault with
  | some e => exact .query fun _ => rfl
  | none => exact declaration_isolated o period found.wires

theorem createClock_isolated (args : List Argument) :
    Isolated fun s => CreateClock.run s args := by
  unfold CreateClock.run
  cases CreateClock.readOptions args with
  | error e => exact .query fun _ => rfl
  | ok out =>
    obtain ⟨o, period⟩ := out
    exact .branch (fun found =>
        (searched_isolated o period found).reported (fun _ => found.warnings) fun _ => rfl)
      (fun s => CreateClock.findTargets s o.targets) fun _ => rfl

open Isolated in
theorem lookUp_isolated (patterns : List String) (includeGenerated : Bool)
    (wires : Option (List WireKey)) :
    Isolated fun s => s.lookUp patterns includeGenerated wires := by
  have hread : Isolated fun s : Session => (s, (readPatterns patterns).map fun ps =>
      s.selectClocks ps includeGenerated wires) := .query fun _ => rfl
  have hempty : Isolated fun s : Session =>
      (s.report [Notice.emptyRegistry], (.ok [] : Except Fault (List Clock))) :=
    have hnone : Isolated fun s : Session => (s, (.ok [] : Except Fault (List Clock))) :=
      query fun _ => rfl
    hnone.reported (fun _ => [Notice.emptyRegistry]) fun _ => rfl
  have hchoice : ∀ empty : Bool, Isolated fun s : Session =>
      if empty then (s.report [Notice.emptyRegistry], .ok [])
      else (s, (readPatterns patterns).map fun ps => s.selectClocks ps includeGenerated wires) := by
    intro empty
    cases empty with
    | false => exact hread
    | true => exact hempty
  exact .branch hchoice (fun s => s.clocks.isEmpty) fun _ => rfl

theorem filtered_isolated (r : Except Fault Lookup.ClockFilter) :
    Isolated fun s : Session => match r with
      | .error e => (s, .error e)
      | .ok f => ((s.lookUp f.patterns f.includeGenerated f.wires).1,
          (s.lookUp f.patterns f.includeGenerated f.wires).2.map fun cs => cs.map (·.name)) := by
  cases r with
  | error e => exact .query fun _ => rfl
  | ok f => exact (lookUp_isolated f.patterns f.includeGenerated f.wires).map _

theorem getClocks_isolated (args : List Argument) : Isolated fun s => Lookup.clocks s args :=
  .branch filtered_isolated (fun s => Lookup.readFilter s args) fun _ => rfl

theorem getPorts_isolated (args : List Argument) : Isolated fun s => Lookup.ports s args where
  blind s := by
    have hdesign : s.quiet.design = s.design := rfl
    unfold Lookup.ports
    rw [hdesign]
    cases s.design.topModule? with
    | none => exact ⟨rfl, rfl⟩
    | some top => cases Lookup.portPattern args <;> exact ⟨rfl, rfl⟩
  atomic s e he := by
    unfold Lookup.ports at he ⊢
    cases s.design.topModule? with
    | none => rfl
    | some top => cases Lookup.portPattern args <;> rfl

theorem found_isolated (r : Except Fault (List String × List String)) :
    Isolated fun s : Session => match r with
      | .error e => (s, .error e)
      | .ok (patterns, names) =>
        (if names.isEmpty then s.report [Notice.absentNet patterns] else s, .ok names) := by
  cases r with
  | error e => exact .query fun _ => rfl
  | ok out =>
    obtain ⟨patterns, names⟩ := out
    have hnames : ∀ empty : Bool, Isolated fun s : Session =>
        (if empty then s.report [Notice.absentNet patterns] else s,
          (.ok names : Except Fault (List String))) := by
      intro empty
      cases empty <;> exact ⟨fun _ => ⟨rfl, rfl⟩, fun _ _ _ => rfl⟩
    exact hnames names.isEmpty

theorem getNets_isolated (args : List Argument) : Isolated fun s => Lookup.nets s args :=
  .branch found_isolated (fun s => do
    let given := (← args.mapM Lookup.netPatterns).flatten
    let patterns := if given.isEmpty then ["*"] else given
    return (patterns, (s.design.paths (← wordWires s patterns)).eraseDups)) fun _ => rfl

theorem propagation_isolated : Isolated fun s : Session => match s.propagate with
    | .error e => (s, .error e)
    | .ok (_, s) => (s, (.ok .nothing : Except Fault Output)) := by
  have hadopt : Isolated fun s : Session => s.adopt s.propagate := .attempt propagate_quiet
  refine (hadopt.map fun _ => Output.nothing).congr fun s => ?_
  cases s.propagate <;> rfl

theorem propagateWith_isolated (args : List Argument) :
    Isolated fun s => s.propagateWith args := by
  unfold propagateWith
  cases args with
  | nil => exact propagation_isolated
  | cons a args =>
    exact propagation_isolated.reported (fun _ => [Notice.ignoredArguments]) fun _ => rfl

theorem record_isolated (r : Except Fault TimingException) : Isolated fun s => s.record r := by
  cases r with
  | error e => exact .query fun _ => rfl
  | ok e => exact ⟨fun _ => ⟨rfl, rfl⟩, fun _ _ he => by cases he⟩

theorem perform_isolated (c : Command) (args : List Argument) :
    Isolated fun s => s.perform c args := by
  cases c with
  | createClock => exact (createClock_isolated args).map fun _ => Output.nothing
  | getClocks => exact (getClocks_isolated args).map Output.names
  | allClocks =>
    have hall : Isolated fun s : Session => (s, Lookup.everyClock s args) := .query fun _ => rfl
    exact hall.map Output.names
  | getPorts => exact (getPorts_isolated args).map Output.names
  | getNets => exact (getNets_isolated args).map Output.names
  | propagateClocks => exact propagateWith_isolated args
  | setFalsePath => exact record_isolated (Constrain.falsePath args)
  | setMaxDelay => exact record_isolated (Constrain.maxDelay args)
  | setClockGroups => exact record_isolated (Constrain.clockGroups args)

theorem execute_isolated (name : String) (args : List Argument) :
    Isolated fun s => s.execute name args := by
  unfold execute
  cases Command.ofName? name with
  | none => exact .query fun _ => rfl
  | some c => exact perform_isolated c args

def accepted? (s : Session) (c : Script.Statement) : Option (String × List Argument) :=
  match Script.readCommand c.text with
  | .error _ => none
  | .ok (name, args) => match (s.execute name args).2 with
    | .error _ => none
    | .ok _ => some (name, args)

def accepted (file : Nat) : Session → List Script.Statement → List (String × List Argument)
  | _, [] => []
  | s, c :: cs => (s.accepted? c).toList ++ accepted file (s.runCommand file c).1 cs

def replay (s : Session) (commands : List (String × List Argument)) : Except Fault Session :=
  commands.foldlM (fun s (name, args) => match s.execute name args with
    | (_, .error e) => .error e
    | (s, .ok _) => .ok s) s

theorem runCommand_cases (file : Nat) (s : Session) (c : Script.Statement) :
    (∃ name args out, s.accepted? c = some (name, args) ∧ (s.execute name args).2 = .ok out ∧
      (s.runCommand file c).2 = .done ∧
      (s.runCommand file c).1.quiet = (s.execute name args).1.quiet) ∨
    (s.accepted? c = none ∧ (s.runCommand file c).2 ≠ .done ∧
      (s.runCommand file c).1.quiet = s.quiet) := by
  unfold accepted? runCommand
  cases Script.readCommand c.text with
  | error e => exact Or.inr ⟨rfl, by simp, rfl⟩
  | ok command =>
    obtain ⟨name, args⟩ := command
    dsimp only
    have hatomic := (execute_isolated name args).atomic s
    cases hname : Command.ofName? name with
    | none =>
      have hrun : s.execute name args = (s, .error (.absent (.command name))) := by
        simp only [execute, hname]
      exact Or.inr ⟨by rw [hrun], by simp, rfl⟩
    | some command =>
      have hrun : s.execute name args = s.perform command args := by simp only [execute, hname]
      rw [hrun] at hatomic ⊢
      dsimp only
      cases hresult : s.perform command args with
      | mk s' result =>
        rw [hresult] at hatomic
        cases result with
        | error e => exact Or.inr ⟨rfl, by simp, hatomic e rfl⟩
        | ok out =>
          refine Or.inl ⟨name, args, out, rfl, by rw [hrun, hresult], ?_⟩
          rw [hrun, hresult]
          cases out <;> exact ⟨rfl, rfl⟩

theorem replay_cons (s : Session) (command : String × List Argument)
    (commands : List (String × List Argument)) {out : Output}
    (h : (s.execute command.1 command.2).2 = .ok out) :
    s.replay (command :: commands) = (s.execute command.1 command.2).1.replay commands := by
  simp only [replay, List.foldlM_cons]
  cases hrun : s.execute command.1 command.2 with
  | mk s' result =>
    rw [hrun] at h
    obtain rfl : result = .ok out := h
    rfl

theorem foldl_advance_replay (file : Nat) (cs : List Script.Statement) {s t : Session}
    (report : ScriptReport) (hst : t.quiet = s.quiet) :
    ∃ t', t.replay (s.accepted file cs) = .ok t' ∧
      t'.quiet = (cs.foldl (advance file) (s, report)).1.quiet := by
  induction cs generalizing s t report with
  | nil => exact ⟨t, rfl, hst⟩
  | cons c cs ih =>
    simp only [List.foldl_cons, accepted]
    obtain ⟨name, args, out, haccepted, hout, -, hquiet⟩ | ⟨haccepted, -, hquiet⟩ :=
      runCommand_cases file s c
    · obtain ⟨hagree, hresult⟩ := (execute_isolated name args).agree hst
      rw [haccepted, Option.toList_some, List.singleton_append,
        replay_cons t (name, args) _ (hresult.trans hout)]
      exact ih _ (hagree.trans hquiet.symm)
    · rw [haccepted, Option.toList_none, List.nil_append]
      exact ih _ (hst.trans hquiet.symm)

theorem foldl_advance_total (file : Nat) (cs : List Script.Statement) (k : Session × ScriptReport) :
    let report := (cs.foldl (advance file) k).2
    report.commands + report.failed + report.skipped =
      k.2.commands + k.2.failed + k.2.skipped + cs.length := by
  induction cs generalizing k with
  | nil => rfl
  | cons c cs ih =>
    have hcount : (advance file k c).2.commands + (advance file k c).2.failed +
        (advance file k c).2.skipped = k.2.commands + k.2.failed + k.2.skipped + 1 := by
      simp only [advance]
      cases (k.1.runCommand file c).2 <;> simp only [ScriptReport.count] <;> omega
    have hsum := ih (advance file k c)
    simp only [List.foldl_cons, List.length_cons] at hsum ⊢
    omega

theorem runScript_isolated (s : Session) (file : Nat) (source : String) :
    (∃ t, s.replay (s.accepted file (Script.split source)) = .ok t ∧
      t.clocks = (s.runScript file source).1.clocks ∧
      t.exceptions = (s.runScript file source).1.exceptions ∧
      t.delayTarget = (s.runScript file source).1.delayTarget) ∧
    (∀ name args, (∃ out, (s.execute name args).2 = .ok out) ∨
      (s.execute name args).1.quiet = s.quiet) ∧
    (∀ c, (s.runCommand file c).2 = .done ∨ (s.runCommand file c).1.quiet = s.quiet) ∧
    (s.runScript file source).2.commands + (s.runScript file source).2.failed +
      (s.runScript file source).2.skipped = (Script.split source).length := by
  refine ⟨?_, fun name args => ?_, fun c => ?_, ?_⟩
  · obtain ⟨t, ht, hquiet⟩ := foldl_advance_replay file (Script.split source) (s := s) {} rfl
    have hsame : t.quiet = (s.runScript file source).1.quiet := hquiet
    obtain ⟨-, -, -, hclocks, hexceptions, hdelay, -⟩ := Session.mk.inj hsame
    exact ⟨t, ht, hclocks, hexceptions, hdelay⟩
  · cases hresult : (s.execute name args).2 with
    | error e => exact Or.inr ((execute_isolated name args).atomic s e hresult)
    | ok out => exact Or.inl ⟨out, rfl⟩
  · obtain ⟨-, -, -, -, -, hdone, -⟩ | ⟨-, -, hquiet⟩ := runCommand_cases file s c
    · exact Or.inl hdone
    · exact Or.inr hquiet
  · simpa [runScript, runCommands] using foldl_advance_total file (Script.split source) (s, {})

end ClockTree.Session
