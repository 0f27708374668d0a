import ClockTree.Command.Script
import ClockTree.Proofs.Outcome
import ClockTree.Proofs.Propagation.History
import ClockTree.Writer.Document

/-!
# What a session goes through

A session starts without clocks and exceptions and goes through actions, each of which may fail.
Whatever they are, it stays on its design, its registry stays sound, and the exceptions are such as
a session records.
-/
namespace ClockTree

/-- What a session records: delays are finite, and there are groups, none of which is empty. -/
def TimingException.Recorded : TimingException → Prop
  | .falsePath _ => True
  | .maxDelay delay _ => delay.isFinite
  | .clockGroups _ groups => groups ≠ [] ∧ [] ∉ groups

namespace Session
open Command

inductive Action where
  | useEngine (e : Engine)
  | useOptions (o : WriterSettings)
  | declare (spec : ClockDeclaration)
  | declareAll (clocks : List (String × ConfiguredClock))
  | propagate
  | lookUp (patterns : List String) (includeGenerated : Bool) (wires : Option (List WireKey))
  | execute (name : String) (args : List Argument)
  | runScript (file : Nat) (source : String)
  | falsePath (ends : Endpoints)
  | maxDelay (delay : Float) (ends : Endpoints)
  | clockGroups (relation : Option GroupRelation) (groups : List (List String))
  | clearExceptions
  | write (includeGenerated : Bool)
  | writeWithin (room : Nat) (includeGenerated : Bool)
  | reset

def act (s : Session) : Action → Session
  | .useEngine e => { s with engine := e }
  | .useOptions o => { s with options := o }
  | .declare spec => match s.declare spec with
    | .error _ => s
    | .ok (_, s) => s
  | .declareAll clocks => (s.declareAll clocks).1
  | .propagate => match s.propagate with
    | .error _ => s
    | .ok (_, s) => s
  | .lookUp patterns includeGenerated wires => (s.lookUp patterns includeGenerated wires).1
  | .execute name args => (s.execute name args).1
  | .runScript file source => (s.runScript file source).1
  | .falsePath ends => s.addException (.falsePath ends)
  | .maxDelay delay ends => match TimingException.ofDelay delay ends with
    | .error _ => s
    | .ok e => s.addException e
  | .clockGroups relation groups => match TimingException.ofGroups relation groups with
    | .error _ => s
    | .ok e => s.addException e
  | .clearExceptions => s.clearExceptions
  | .write includeGenerated => (s.write includeGenerated).2
  | .writeWithin room includeGenerated => (s.writeWithin room includeGenerated).1
  | .reset => s.reset

def after (d : Design) (actions : List Action) : Session := actions.foldl act { design := d }

structure Regular (d : Design) (s : Session) : Prop where
  design : s.design = d
  sound : s.clocks.Sound d
  recorded : ∀ e ∈ s.exceptions, e.Recorded

end Session

theorem TimingException.recorded_of_delay {delay : Float} {ends : Endpoints} {e : TimingException}
    (h : ofDelay delay ends = .ok e) : e.Recorded := by
  unfold ofDelay at h
  split at h
  · rename_i hfinite
    cases h
    exact hfinite
  · cases h

theorem TimingException.recorded_of_groups {relation : Option GroupRelation}
    {groups : List (List String)} {e : TimingException} (h : ofGroups relation groups = .ok e) :
    e.Recorded := by
  unfold ofGroups at h
  split at h
  · cases h
  · rename_i hne
    split at h
    · cases h
    · rename_i hfull
      cases h
      refine ⟨by simpa using hne, fun hempty => ?_⟩
      simpa using List.findIdx?_eq_none_iff.mp hfull [] hempty

namespace Session
open Command
variable {d : Design} {s : Session}

namespace Regular

theorem start (d : Design) : Regular d { design := d } :=
  ⟨rfl, Registry.Sound.empty, by simp⟩

theorem report (h : s.Regular d) (ds : List Diagnostic) : (s.report ds).Regular d :=
  ⟨h.design, h.sound, h.recorded⟩

theorem addException (h : s.Regular d) {e : TimingException} (he : e.Recorded) :
    (s.addException e).Regular d :=
  ⟨h.design, h.sound, List.forall_mem_append.mpr ⟨h.recorded, List.forall_mem_singleton.mpr he⟩⟩

theorem declare (h : s.Regular d) {spec : ClockDeclaration} {clock : Clock} {s' : Session}
    (hdeclare : s.declare spec = .ok (clock, s')) : s'.Regular d := by
  obtain ⟨rfl, hsound, hrecorded⟩ := h
  unfold Session.declare at hdeclare
  split at hdeclare
  · cases hdeclare
  · rename_i hadd
    cases hdeclare
    exact ⟨rfl, hsound.of_add hadd, hrecorded⟩

theorem registers (h : s.Regular d) {spec : ClockDeclaration} {clock : Clock} {s' : Session}
    (hdeclare : s.declare spec = .ok (clock, s')) :
    clock = spec.clock ∧ clock.wires ≠ [] ∧ clock ∈ s'.clocks.clocks ∧
      ∃ log, s.clocks.add d spec = .ok (clock, s'.clocks, log) := by
  unfold Session.declare at hdeclare
  rw [h.design] at hdeclare
  obtain ⟨reason, -, hadd⟩ | ⟨transfer, hnone, hcompletes, -, hadd⟩ := h.sound.add_cases spec
  · rw [hadd] at hdeclare
    cases hdeclare
  · rw [hadd] at hdeclare
    cases hdeclare
    have hwires : spec.clock.wires ≠ [] := Registry.clock_wires_ne hnone
    exact ⟨rfl, hwires, hcompletes.mem_new hwires, _, hadd⟩

theorem propagate (h : s.Regular d) {summary : PropagationReport} {s' : Session}
    (hpropagate : s.propagate = .ok (summary, s')) : s'.Regular d := by
  obtain ⟨rfl, hsound, hrecorded⟩ := h
  unfold Session.propagate at hpropagate
  split at hpropagate
  · cases hpropagate
  · rename_i hrun
    cases hpropagate
    exact ⟨rfl, Engine.run_sound hsound hrun, hrecorded⟩

theorem declareAll_go (total : List (String × ConfiguredClock))
    (clocks : List (String × ConfiguredClock)) (h : s.Regular d) :
    (Session.declareAll.go total s clocks).1.Regular d := by
  induction clocks generalizing s with
  | nil => exact h
  | cons c clocks ih =>
    unfold Session.declareAll.go
    cases hc : s.declareConfigured c.1 c.2 with
    | error e => exact h
    | ok out =>
      obtain ⟨clock, s'⟩ := out
      refine ih ?_
      unfold Session.declareConfigured at hc
      split at hc
      · cases hc
      · cases hwires : s.configuredWires c.1 c.2.target with
        | error e => simp [hwires, bind, Except.bind] at hc
        | ok wires =>
          simp only [hwires, bind, Except.bind] at hc
          exact h.declare hc

theorem record (h : s.Regular d) {r : Except Fault TimingException}
    (hr : ∀ e, r = .ok e → e.Recorded) : (s.record r).1.Regular d := by
  cases r with
  | error e => exact h
  | ok e => exact h.addException (hr e rfl)

end Regular

theorem recorded_falsePath {args : List Argument} {e : TimingException}
    (h : Constrain.falsePath args = .ok e) : e.Recorded := by
  unfold Constrain.falsePath at h
  split at h
  · cases h
  · cases h
    trivial

theorem recorded_maxDelay {args : List Argument} {e : TimingException}
    (h : Constrain.maxDelay args = .ok e) : e.Recorded := by
  unfold Constrain.maxDelay at h
  split at h
  · cases h
  · split at h
    · cases h
    · exact TimingException.recorded_of_delay (ok_of_mapError h)

theorem recorded_clockGroups {args : List Argument} {e : TimingException}
    (h : Constrain.clockGroups args = .ok e) : e.Recorded := by
  unfold Constrain.clockGroups at h
  split at h
  · cases h
  · exact TimingException.recorded_of_groups (ok_of_mapError h)

section
variable (args : List Argument) (h : s.Regular d)
include h

theorem createClock_regular : (CreateClock.run s args).1.Regular d := by
  unfold CreateClock.run
  cases CreateClock.readOptions args with
  | error e => exact h
  | ok out =>
    obtain ⟨o, period⟩ := out
    dsimp only
    generalize CreateClock.findTargets s o.targets = found
    have hreported := h.report found.warnings
    generalize s.report found.warnings = s at hreported
    cases found.fault with
    | some e => exact hreported
    | none =>
      dsimp only
      cases hspec : o.spec s.design period found.wires with
      | error e => exact hreported
      | ok spec =>
        cases hdeclare : s.declare spec with
        | error e => simpa only [bind, Except.bind, hdeclare] using hreported
        | ok out => simpa only [bind, Except.bind, hdeclare] using hreported.declare hdeclare

theorem lookUp_regular (patterns : List String) (includeGenerated : Bool)
    (wires : Option (List WireKey)) : (s.lookUp patterns includeGenerated wires).1.Regular d := by
  unfold lookUp
  split
  · exact h.report _
  · exact h

theorem getClocks_regular : (Lookup.clocks s args).1.Regular d := by
  unfold Lookup.clocks
  split
  · exact h
  · exact lookUp_regular h _ _ _

theorem getPorts_regular : (Lookup.ports s args).1.Regular d := by
  unfold Lookup.ports
  split
  · exact h
  · split
    · exact h
    · exact h.report _

theorem getNets_regular : (Lookup.nets s args).1.Regular d := by
  unfold Lookup.nets
  dsimp only
  split
  · exact h
  · split
    · exact h.report _
    · exact h

theorem propagateWith_regular : (s.propagateWith args).1.Regular d := by
  have hrun : ∀ s : Session, s.Regular d → (s.propagateWith []).1.Regular d := by
    intro s h
    simp only [propagateWith, List.isEmpty_nil, if_true]
    cases hpropagate : s.propagate with
    | error e => exact h
    | ok out => exact h.propagate hpropagate
  cases args with
  | nil => exact hrun s h
  | cons a args => exact hrun _ (h.report [Notice.ignoredArguments])

theorem perform_regular (c : Command) : (s.perform c args).1.Regular d := by
  cases c with
  | createClock => exact createClock_regular args h
  | getClocks => exact getClocks_regular args h
  | allClocks => exact h
  | getPorts => exact getPorts_regular args h
  | getNets => exact getNets_regular args h
  | propagateClocks => exact propagateWith_regular args h
  | setFalsePath => exact h.record fun _ => recorded_falsePath
  | setMaxDelay => exact h.record fun _ => recorded_maxDelay
  | setClockGroups => exact h.record fun _ => recorded_clockGroups

theorem execute_regular (name : String) : (s.execute name args).1.Regular d := by
  unfold execute
  split
  · exact h
  · exact perform_regular args h _

theorem runCommand_regular (file : Nat) (c : Script.Statement) :
    (s.runCommand file c).1.Regular d := by
  unfold runCommand
  dsimp only
  cases Script.readCommand c.text with
  | error e => exact h.report _
  | ok command =>
    obtain ⟨name, args⟩ := command
    dsimp only
    cases Command.ofName? name with
    | none => exact h.report _
    | some command =>
      have hafter := perform_regular args h command
      dsimp only
      generalize s.perform command args = result at hafter
      obtain ⟨s', _ | _ | _⟩ := result
      · exact hafter.report _
      · exact hafter
      · exact hafter.report _

theorem runScript_regular (file : Nat) (source : String) :
    (s.runScript file source).1.Regular d :=
  List.foldlRecOn (motive := fun k : Session × ScriptReport => k.1.Regular d) _ _ h
    fun _ hk c _ => runCommand_regular hk file c

theorem act_regular (a : Action) : (s.act a).Regular d := by
  cases a with
  | useEngine e => exact ⟨h.design, h.sound, h.recorded⟩
  | useOptions o => exact ⟨h.design, h.sound, h.recorded⟩
  | declare spec =>
    simp only [act]
    split
    · exact h
    · rename_i hdeclare
      exact h.declare hdeclare
  | declareAll clocks => exact Regular.declareAll_go clocks clocks h
  | propagate =>
    simp only [act]
    split
    · exact h
    · rename_i hpropagate
      exact h.propagate hpropagate
  | lookUp patterns includeGenerated wires => exact lookUp_regular h patterns includeGenerated wires
  | execute name args => exact execute_regular args h name
  | runScript file source => exact runScript_regular h file source
  | falsePath ends => exact h.addException trivial
  | maxDelay delay ends =>
    simp only [act]
    split
    · exact h
    · rename_i he
      exact h.addException (TimingException.recorded_of_delay he)
  | clockGroups relation groups =>
    simp only [act]
    split
    · exact h
    · rename_i he
      exact h.addException (TimingException.recorded_of_groups he)
  | clearExceptions => exact ⟨h.design, h.sound, by simp [act, clearExceptions]⟩
  | write includeGenerated => exact h.report _
  | writeWithin room includeGenerated => exact h.report _
  | reset => exact ⟨h.design, Registry.Sound.empty, by simp [act, reset]⟩

end

theorem after_regular (d : Design) (actions : List Action) : (after d actions).Regular d :=
  List.foldlRecOn (motive := Regular d) _ _ (.start d) fun _ h a _ => act_regular h a

end Session
end ClockTree
