import ClockTree.Command.Script
import ClockTree.Writer.Document

/-!
# Errors are commands that failed

Declarations, propagation, look-ups and the writer report warnings and notes. An error is reported
only where a command of a script is malformed or fails, one for each, so that a log counts as many
errors as commands failed.
-/
namespace ClockTree

def Harmless (ds : List Diagnostic) : Prop := ∀ d ∈ ds, d.severity ≠ .error

namespace Harmless
variable {ds es : List Diagnostic}

theorem nil : Harmless [] := fun _ hd => by cases hd

theorem append (h : Harmless ds) (h' : Harmless es) : Harmless (ds ++ es) :=
  List.forall_mem_append.mpr ⟨h, h'⟩

theorem single {d : Diagnostic} (h : d.severity ≠ .error) : Harmless [d] :=
  List.forall_mem_singleton.mpr h

theorem cons {d : Diagnostic} (h : d.severity ≠ .error) (h' : Harmless ds) : Harmless (d :: ds) :=
  List.forall_mem_cons.mpr ⟨h, h'⟩

theorem map {α : Type} {f : α → Diagnostic} (h : ∀ a, (f a).severity ≠ .error) (as : List α) :
    Harmless (as.map f) :=
  List.forall_mem_map.mpr fun a _ => h a

end Harmless

theorem DiagnosticLog.errors_putAll {ds : List Diagnostic} (h : Harmless ds) (l : DiagnosticLog) :
    (l.putAll ds).errors = l.errors := by
  unfold putAll
  induction ds generalizing l with
  | nil => rfl
  | cons d ds ih =>
    obtain ⟨hd, hds⟩ := List.forall_mem_cons.mp h
    rw [List.foldl_cons, ih hds, put, if_neg hd, Nat.add_zero]

/-! ## Registrations -/

namespace Registration
variable {α β : Type} {x : Registration α}

/-- The computation reports no error. -/
def Mild (x : Registration α) : Prop :=
  ∀ l l' a, x.run l = .ok a l' → Harmless l.log → Harmless l'.log

theorem mild_pure (a : α) : Mild (pure a) := by
  intro l l' b hrun h
  cases hrun
  exact h

theorem mild_get : Mild (get : Registration Ledger) := by
  intro l l' b hrun h
  cases hrun
  exact h

theorem mild_modify {f : Ledger → Ledger} (hf : ∀ l, (f l).log = l.log) :
    Mild (modify f : Registration Unit) := by
  intro l l' b hrun h
  cases hrun
  rwa [hf]

theorem Mild.bind {f : α → Registration β} (hx : Mild x) (hf : ∀ a, Mild (f a)) :
    Mild (x >>= f) := by
  intro l l'' b hrun h
  rw [EStateM.run_bind] at hrun
  split at hrun
  · rename_i a l' hfirst
    exact hf a l' l'' b hrun (hx l l' a hfirst h)
  · cases hrun

theorem Mild.foldlM {f : β → α → Registration β} (hf : ∀ b a, Mild (f b a)) (as : List α) (b : β) :
    Mild (as.foldlM f b) := by
  induction as generalizing b with
  | nil => exact mild_pure b
  | cons a as ih => exact (hf b a).bind fun b => ih b

theorem Mild.forM {f : α → Registration PUnit} (hf : ∀ a, Mild (f a)) (as : List α) :
    Mild (ForM.forM as f) := by
  induction as with
  | nil => exact mild_pure _
  | cons a as ih => exact (hf a).bind fun _ => ih

theorem mild_report {n : Diagnostic} (hn : n.severity ≠ .error) : Mild (report n) := by
  intro l l' b hrun h
  cases hrun
  exact h.append (.single hn)

theorem mild_found (name : String) (o : Option α) : Mild (found name o) := by
  cases o with
  | some a => exact mild_pure a
  | none =>
    intro l l' b hrun
    cases hrun

theorem mild_update (name : String) (step : Registry → Option Registry) :
    Mild (update name step) :=
  mild_get.bind fun _ => (mild_found name _).bind fun _ => mild_modify (by intro l; rfl)

theorem mild_take (d : Design) (name : String) (emptied : List String) (w : WireKey) :
    Mild (take d name emptied w) := by
  refine mild_get.bind fun l => ?_
  dsimp only
  split
  · exact mild_pure emptied
  · exact (mild_report (by nofun)).bind fun _ => (mild_found name _).bind fun _ =>
      (mild_found name _).bind fun _ => (mild_modify (by intro l; rfl)).bind fun _ => mild_pure _

theorem mild_drop (name owner : String) : Mild (drop name owner) :=
  (mild_report (by nofun)).bind fun _ => mild_update name _

theorem mild_enroll (d : Design) (c : Clock) : Mild (enroll d c) :=
  (mild_update c.name _).bind fun _ => (Mild.foldlM (mild_take d c.name) c.wires []).bind fun _ =>
    (mild_update c.name _).bind fun _ => (Mild.forM (mild_drop c.name) _).bind fun _ =>
      mild_get.bind fun _ => mild_found c.name _

end Registration

namespace Registry

theorem add_harmless {r r' : Registry} {d : Design} {spec : ClockDeclaration} {clock : Clock}
    {log : List Diagnostic} (h : r.add d spec = .ok (clock, r', log)) : Harmless log := by
  unfold add attempt at h
  split at h
  · rename_i l hrun
    cases h
    split at hrun
    · cases hrun
    · exact Registration.mild_enroll d spec.clock _ _ _ hrun Harmless.nil
  · cases h

end Registry

/-! ## Propagation -/

namespace Walk
variable {d : Design} {dep : Departure} {k : Walk} {w : WireKey}

theorem report_harmless (h : Harmless k.log) {n : Diagnostic} (hn : n.severity ≠ .error) :
    Harmless (k.report n).log :=
  h.append (.single hn)

theorem derive_harmless (h : Harmless k.log) (name : String) :
    Harmless (k.derive d dep w name).log := by
  unfold derive
  dsimp only
  split
  · exact report_harmless h nofun
  · rename_i hadd
    exact (h.append (Registry.add_harmless hadd)).append (.single nofun)

theorem settle_harmless (h : Harmless k.log) : Harmless (k.settle d dep w).log := by
  unfold settle
  split
  · exact h
  · refine derive_harmless ?_ _
    split
    · split
      · exact report_harmless h nofun
      · exact h
    · exact h

theorem visitTarget_harmless (h : Harmless k.log) : Harmless (visitTarget d dep k w).log := by
  unfold visitTarget
  split
  · exact h
  · split
    · split
      · exact h
      · exact settle_harmless h
    · exact settle_harmless h

theorem visitOutput_harmless (h : Harmless k.log) (module : Nat) (source : Clock) (cell : Cell)
    (arriving : List String) (out : Outlet) :
    Harmless (visitOutput d module source cell arriving k out).log := by
  unfold visitOutput
  dsimp only
  split
  · exact h
  · split
    · exact report_harmless h nofun
    · exact List.foldlRecOn (motive := fun k : Walk => Harmless k.log) _ _ h
        fun _ hk _ _ => visitTarget_harmless hk

theorem visitReader_harmless (h : Harmless k.log) (rules : RuleSet) (module : Nat) (source : Clock)
    (reader : Cell × Reader) : Harmless (visitReader rules d module source k reader).log := by
  unfold visitReader
  dsimp only
  split
  · exact h
  · split
    · exact List.foldlRecOn (motive := fun k : Walk => Harmless k.log) _ _ h
        fun _ hk out _ => visitOutput_harmless hk module source _ _ out
    · exact h

theorem visitWire_harmless (h : Harmless k.log) (rules : RuleSet) :
    Harmless (visitWire rules d d.fanout k w).log := by
  unfold visitWire
  split
  · exact h
  · exact List.foldlRecOn (motive := fun k : Walk => Harmless k.log) _ _ h
      fun _ hk reader _ => visitReader_harmless hk rules w.module _ reader

theorem run_harmless (rules : RuleSet) (n : Nat) (h : Harmless k.log) :
    Harmless (run rules d d.fanout n k).log := by
  induction n generalizing k with
  | zero => exact h
  | succ n ih =>
    unfold run
    split
    · exact h
    · rename_i w queue _
      exact ih (visitWire_harmless (k := { k with queue }) h rules)

end Walk

theorem Engine.run_harmless {e : Engine} {d : Design} {r r' : Registry}
    {summary : PropagationReport} {log : List Diagnostic} (h : e.run d r = .ok (summary, r', log)) :
    Harmless log := by
  have hprogress : Harmless (e.progress d r).log :=
    List.foldlRecOn (motive := fun k : Progress => Harmless k.log) _ _ .nil fun k hk p _ =>
      hk.append (.cons nofun (Walk.run_harmless p.rules _ .nil))
  unfold run at h
  split at h
  · cases h
  · split at h
    · cases h
    · cases h
      exact hprogress.append (.map (by nofun) _)

/-! ## Operations of a session -/

namespace Session
open Command
variable {s s' : Session}

theorem errors_report {ds : List Diagnostic} (h : Harmless ds) (s : Session) :
    (s.report ds).log.errors = s.log.errors :=
  s.log.errors_putAll h

theorem errors_declare {spec : ClockDeclaration} {clock : Clock}
    (h : s.declare spec = .ok (clock, s')) : s'.log.errors = s.log.errors := by
  unfold declare at h
  split at h
  · cases h
  · rename_i hadd
    cases h
    exact errors_report ((Registry.add_harmless hadd).append (.single (by nofun))) _

theorem errors_declareConfigured {name : String} {c : ConfiguredClock} {clock : Clock}
    (h : s.declareConfigured name c = .ok (clock, s')) : s'.log.errors = s.log.errors := by
  unfold declareConfigured at h
  split at h
  · cases h
  · cases hwires : s.configuredWires name c.target with
    | error e =>
      rw [hwires] at h
      cases h
    | ok wires =>
      rw [hwires] at h
      exact errors_declare h

theorem errors_declareAll (s : Session) (clocks : List (String × ConfiguredClock)) :
    (s.declareAll clocks).1.log.errors = s.log.errors := by
  have hgo : ∀ rest (s : Session), (declareAll.go clocks s rest).1.log.errors = s.log.errors := by
    intro rest
    induction rest with
    | nil => exact fun _ => rfl
    | cons c rest ih =>
      intro s
      rw [declareAll.go]
      split
      · rfl
      · rename_i hdeclare
        exact (ih _).trans (errors_declareConfigured hdeclare)
  exact hgo clocks s

theorem errors_propagate {summary : PropagationReport} (h : s.propagate = .ok (summary, s')) :
    s'.log.errors = s.log.errors := by
  unfold propagate at h
  split at h
  · cases h
  · rename_i hrun
    cases h
    exact errors_report (Engine.run_harmless hrun) _

theorem errors_write (s : Session) (includeGenerated : Bool) :
    (s.write includeGenerated).2.log.errors = s.log.errors := by
  refine errors_report (fun d hd => ?_) s
  obtain ⟨e, he, hnotice⟩ := List.mem_filterMap.mp hd
  obtain ⟨c, -, rfl⟩ | ⟨i, hi, rfl⟩ :=
    (List.mem_append.mp he).imp List.mem_map.mp List.mem_mapIdx.mp
  · cases hnotice
  · unfold Writer.exceptionEntry at hnotice
    split at hnotice
    · cases hnotice
    · cases hnotice
      exact nofun

section
variable (s : Session) (args : List Argument)

theorem findPattern_harmless (pattern : String) :
    Harmless (CreateClock.findPattern s pattern).warnings := by
  unfold CreateClock.findPattern
  dsimp only
  split
  · exact .single nofun
  · unfold CreateClock.Found.ofExcept
    split <;> exact .nil

theorem foldr_append_harmless {found : List CreateClock.Found}
    (h : ∀ f ∈ found, Harmless f.warnings) :
    Harmless (found.foldr CreateClock.Found.append {}).warnings := by
  induction found with
  | nil => exact .nil
  | cons f found ih =>
    obtain ⟨hf, hfound⟩ := List.forall_mem_cons.mp h
    rw [List.foldr_cons]
    unfold CreateClock.Found.append
    split
    · exact hf
    · exact hf.append (ih hfound)

theorem findTargets_harmless (targets : List Argument) :
    Harmless (CreateClock.findTargets s targets).warnings := by
  refine foldr_append_harmless (List.forall_mem_map.mpr fun a _ => ?_)
  unfold CreateClock.findTarget
  split
  · exact foldr_append_harmless (List.forall_mem_map.mpr fun p _ => s.findPattern_harmless p)
  · unfold CreateClock.Found.ofExcept
    split <;> exact .nil

theorem errors_createClock : (CreateClock.run s args).1.log.errors = s.log.errors := by
  unfold CreateClock.run
  cases CreateClock.readOptions args with
  | error e => rfl
  | ok out =>
    obtain ⟨o, period⟩ := out
    dsimp only
    have hreport := errors_report (s.findTargets_harmless o.targets) s
    generalize CreateClock.findTargets s o.targets = found at hreport ⊢
    generalize s.report found.warnings = t at hreport ⊢
    cases found.fault with
    | some e => exact hreport
    | none =>
      dsimp only
      cases o.spec t.design period found.wires with
      | error e => exact hreport
      | ok spec =>
        cases hdeclare : t.declare spec with
        | error e => simpa only [bind, Except.bind, hdeclare] using hreport
        | ok out => simpa only [bind, Except.bind, hdeclare] using
            (errors_declare hdeclare).trans hreport

theorem errors_propagateWith : (s.propagateWith args).1.log.errors = s.log.errors := by
  have hrun : ∀ s : Session, (s.propagateWith []).1.log.errors = s.log.errors := by
    intro s
    simp only [propagateWith, List.isEmpty_nil, if_true]
    cases hpropagate : s.propagate with
    | error e => rfl
    | ok out => exact errors_propagate hpropagate
  cases args with
  | nil => exact hrun s
  | cons a args => exact (hrun _).trans (errors_report (.single (by nofun)) s)

theorem errors_getClocks : (Lookup.clocks s args).1.log.errors = s.log.errors := by
  unfold Lookup.clocks lookUp
  split
  · rfl
  · dsimp only
    split
    · exact errors_report (.single (by nofun)) s
    · rfl

theorem errors_getPorts : (Lookup.ports s args).1.log.errors = s.log.errors := by
  unfold Lookup.ports
  split
  · rfl
  · split
    · rfl
    · refine errors_report ?_ s
      split
      · exact .nil
      · split <;> exact .single nofun

theorem errors_getNets : (Lookup.nets s args).1.log.errors = s.log.errors := by
  unfold Lookup.nets
  dsimp only
  split
  · rfl
  · split
    · exact errors_report (.single (by nofun)) s
    · rfl

theorem errors_record (r : Except Fault TimingException) :
    (s.record r).1.log.errors = s.log.errors := by
  cases r <;> rfl

theorem errors_perform (c : Command) : (s.perform c args).1.log.errors = s.log.errors := by
  cases c with
  | createClock => exact s.errors_createClock args
  | getClocks => exact s.errors_getClocks args
  | allClocks => rfl
  | getPorts => exact s.errors_getPorts args
  | getNets => exact s.errors_getNets args
  | propagateClocks => exact s.errors_propagateWith args
  | setFalsePath => exact s.errors_record (Constrain.falsePath args)
  | setMaxDelay => exact s.errors_record (Constrain.maxDelay args)
  | setClockGroups => exact s.errors_record (Constrain.clockGroups args)

end

/-! ## Scripts -/

section
variable (file : Nat) (s : Session)

def outcomes : Session → List Script.Statement → List Outcome
  | _, [] => []
  | s, c :: cs => (s.runCommand file c).2 :: outcomes (s.runCommand file c).1 cs

theorem errors_runCommand (c : Script.Statement) : (s.runCommand file c).1.log.errors =
    s.log.errors + [(s.runCommand file c).2].count .failed := by
  unfold runCommand
  dsimp only
  split
  · rfl
  · split
    · exact errors_report (.single (by nofun)) s
    · rename_i name args _ _ command _
      have hperform := s.errors_perform args command
      split <;> rename_i hresult <;> rw [hresult] at hperform
      · exact congrArg (· + 1) hperform
      · exact hperform
      · exact (errors_report (.single (by nofun)) _).trans hperform

theorem foldl_advance_counts (cs : List Script.Statement) (k : Session × ScriptReport) :
    let k' := cs.foldl (advance file) k
    k'.1.log.errors = k.1.log.errors + (k.1.outcomes file cs).count .failed ∧
      k'.2.failed = k.2.failed + (k.1.outcomes file cs).count .failed := by
  induction cs generalizing k with
  | nil => exact ⟨rfl, rfl⟩
  | cons c cs ih =>
    obtain ⟨herrors, hfailed⟩ := ih (advance file k c)
    have hcommand : (advance file k c).1.log.errors =
        k.1.log.errors + [(k.1.runCommand file c).2].count .failed := errors_runCommand file k.1 c
    have hreport : (advance file k c).2.failed =
        k.2.failed + [(k.1.runCommand file c).2].count .failed := by
      unfold advance
      dsimp only
      cases (k.1.runCommand file c).2 <;> rfl
    rw [hcommand, Nat.add_assoc] at herrors
    rw [hreport, Nat.add_assoc] at hfailed
    have hcount : (k.1.outcomes file (c :: cs)).count .failed =
        [(k.1.runCommand file c).2].count .failed +
          ((advance file k c).1.outcomes file cs).count .failed := by
      rw [outcomes, ← List.singleton_append, List.count_append]
      rfl
    rw [hcount]
    exact ⟨herrors, hfailed⟩

theorem runCommands_counts (cs : List Script.Statement) :
    (s.runCommands file cs).1.log.errors = s.log.errors + (s.outcomes file cs).count .failed ∧
      (s.runCommands file cs).2.failed = (s.outcomes file cs).count .failed := by
  have h := foldl_advance_counts file cs (s, {})
  rwa [Nat.zero_add] at h

end
end Session
end ClockTree
