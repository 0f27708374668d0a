import ClockTree.Proofs.Notices
import ClockTree.Proofs.Propagation.Bound
import ClockTree.Proofs.Propagation.Idempotence

/-!
# Clocks that are taken over

A derivation may give its wire to a clock while another one stands on it. The log of a run tells of
each derivation whether it did: a warning comes before the note that the clock is derived, and there
is no warning besides.
-/
namespace ClockTree

/-- What a log shows of a derivation: the warning about a clock that is taken over, and the note that
the new clock is registered. -/
inductive Mark where
  | taken (warning : Diagnostic)
  | derived
deriving DecidableEq

def Mark.warning? : Mark → Option Diagnostic
  | .taken n => some n
  | .derived => none

def Diagnostic.mark? (n : Diagnostic) : Option Mark :=
  if n.code = Notice.wireMoved then some (.taken n)
  else if n.code = Notice.clockDerived then some .derived
  else none

theorem filterMap_warning? (log : List Diagnostic) :
    (log.filterMap Diagnostic.mark?).filterMap Mark.warning? =
      log.filter (·.code = Notice.wireMoved) := by
  rw [List.filterMap_filterMap, ← List.filterMap_eq_filter]
  refine List.filterMap_congr fun n _ => ?_
  simp only [Diagnostic.mark?, Option.guard, decide_eq_true_eq]
  split
  · rfl
  · split <;> rfl

def Clock.TellsTaken (c : Clock) (path : String) (old : Clock) (n : Diagnostic) : Prop :=
  if old.name = c.name then
    n.TellsRederived c.name path (old.parent?.getD "?") (c.parent?.getD "?")
  else n.TellsMoved path old.name c.name

theorem Clock.warning_tells (c : Clock) (path : String) (old : Clock) :
    c.TellsTaken path old (c.warning path old) := by
  unfold TellsTaken warning
  split
  · exact Notice.rederived_tells _ _ _ _
  · exact Notice.moved_tells _ _ _

structure Derivation where
  before : Registry
  spec : ClockDeclaration

namespace Derivation

def warnings (d : Design) (v : Derivation) : List Diagnostic :=
  v.spec.wires.filterMap fun w =>
    (v.before.carrier? w).map (v.spec.clock.warning ((d.path? w).getD w.describe))

def marks (d : Design) (v : Derivation) : List Mark := (v.warnings d).map .taken ++ [.derived]

/-- The declaration is of a clock on one wire. A clock that stands on the wire is a generated one, and
there is one warning, about this clock, if there is such a clock. -/
def Regular (d : Design) (v : Derivation) : Prop :=
  ∃ w path, v.spec.wires = [w] ∧ d.path? w = some path ∧
    v.warnings d = ((v.before.carrier? w).map (v.spec.clock.warning path)).toList ∧
    ∀ old, v.before.carrier? w = some old → old.isGenerated ∧
      v.spec.clock.TellsTaken path old (v.spec.clock.warning path old)

theorem warnings_single {d : Design} {v : Derivation} {w : WireKey} {path : String}
    (hwires : v.spec.wires = [w]) (hpath : d.path? w = some path) :
    v.warnings d = ((v.before.carrier? w).map (v.spec.clock.warning path)).toList := by
  rw [warnings, hwires]
  cases hold : v.before.carrier? w <;> simp [hold, hpath]

theorem filterMap_marks (d : Design) (v : Derivation) :
    (v.marks d).filterMap Mark.warning? = v.warnings d := by
  simp [marks, Mark.warning?, List.filterMap_map, Function.comp_def]

end Derivation

namespace Registry

def derivations (d : Design) : Registry → List ClockDeclaration → List Derivation :=
  emissions (fun r spec => (Operation.declare spec).apply d r) (fun r spec => [⟨r, spec⟩])

variable {d : Design} {r r' r'' : Registry} {specs specs' : List ClockDeclaration}

theorem derivations_append (h : r.Leads d specs r') :
    r.derivations d (specs ++ specs') = r.derivations d specs ++ r'.derivations d specs' := by
  rw [derivations, emissions_append, h.foldl]

theorem length_derivations (r : Registry) (specs : List ClockDeclaration) :
    (r.derivations d specs).length = specs.length := by
  induction specs generalizing r with
  | nil => rfl
  | cons spec specs ih => exact congrArg (· + 1) (ih _)

/-- The declarations `specs` lead from the one registry to the other, and `log` shows the clocks that
they take over. -/
structure Accounts (d : Design) (r : Registry) (log : List Diagnostic) (r' : Registry)
    (specs : List ClockDeclaration) : Prop where
  sound : r'.Sound d
  leads : r.Leads d specs r'
  marks : log.filterMap Diagnostic.mark? = (r.derivations d specs).flatMap (Derivation.marks d)
  regular : ∀ v ∈ r.derivations d specs, v.Regular d

theorem Accounts.quiet {log : List Diagnostic} (h : r.Sound d)
    (hlog : ∀ n ∈ log, n.mark? = none) : Accounts d r log r [] where
  sound := h
  leads := rfl
  marks := List.filterMap_eq_nil_iff.mpr hlog
  regular := List.forall_mem_nil _

theorem Accounts.append {log log' : List Diagnostic} (h : Accounts d r log r' specs)
    (h' : Accounts d r' log' r'' specs') : Accounts d r (log ++ log') r'' (specs ++ specs') where
  sound := h'.sound
  leads := h.leads.append h'.leads
  marks := by rw [List.filterMap_append, h.marks, h'.marks, derivations_append h.leads,
    List.flatMap_append]
  regular := by
    rw [derivations_append h.leads]
    exact List.forall_mem_append.mpr ⟨h.regular, h'.regular⟩

end Registry

open Registry (Accounts)

theorem Departure.filterMap_reports (dep : Departure) (path : String) (c : Clock)
    (old? : Option Clock) (gone : List String) :
    (dep.reports path c old? gone).filterMap Diagnostic.mark? =
      (old?.map (c.warning path)).toList.map .taken ++ [.derived] := by
  have hgone : (gone.map Notice.dropped).filterMap Diagnostic.mark? = [] :=
    List.filterMap_eq_nil_iff.mpr (List.forall_mem_map.mpr fun _ _ => rfl)
  rw [reports, List.filterMap_append, List.filterMap_append, hgone, List.append_nil]
  congr 1
  cases old? with
  | none => rfl
  | some old => simp [Diagnostic.mark?, Clock.warning_code]

namespace Walk
variable {d : Design} {rules : RuleSet} {r : Registry} {k k' : Walk} {done : List ClockDeclaration}

theorem Derives.accounts {dep : Departure} {target : WireKey} {path : String}
    (hyes : Derives d dep k target k' path) (hsound : k'.registry.Sound d) :
    ∃ news, k'.log = k.log ++ news ∧
      Accounts d k.registry news k'.registry (Walk.declares d dep k target) := by
  obtain ⟨gone, hlog⟩ := hyes.log
  refine ⟨_, hlog, hsound, hyes.leads, ?_, ?_⟩
  · rw [Departure.filterMap_reports, hyes.declares]
    have hmarks : ∀ v : Derivation, [v].flatMap (Derivation.marks d) = v.marks d := by simp
    refine Eq.trans ?_ (hmarks ⟨k.registry, _⟩).symm
    rw [Derivation.marks, Derivation.warnings_single rfl hyes.address]
    rfl
  · rw [hyes.declares]
    refine List.forall_mem_singleton.mpr ⟨target, path, rfl, hyes.address,
      Derivation.warnings_single rfl hyes.address, fun old hold => ⟨?_, Clock.warning_tells _ _ _⟩⟩
    exact Registry.isGenerated_of_not_settles (hyes.stale old hold)

theorem visitWire_accounts (h : Accounts d r k.log k.registry done) (w : WireKey) :
    Accounts d r (visitWire rules d d.fanout k w).log (visitWire rules d d.fanout k w).registry
      (done ++ wireDeclares rules d k w) := by
  refine visitWire_declares (I := fun k done => Accounts d r k.log k.registry done)
    (fun source _ => ⟨fun k done n hcode hk => ?_, fun k done o r' ho hk => ?_⟩) h
  · have hmark : n.mark? = none := by
      simp [Diagnostic.mark?, hcode, Notice.malformedElement, Notice.wireMoved, Notice.clockDerived]
    have hlater := hk.append (.quiet hk.sound (List.forall_mem_singleton.mpr hmark))
    rwa [List.append_nil] at hlater
  · have ha := offer_answer hk.sound ho r'
    obtain hno | ⟨path, hyes⟩ := ha.declines_or_derives
    · rwa [hno.log, hno.registry, hno.declares, List.append_nil]
    · obtain ⟨news, hlog, hnews⟩ := hyes.accounts (ha.sound hk.sound)
      rw [hlog]
      exact hk.append hnews

end Walk

theorem Pass.walk_accounts (p : Pass) {d : Design} {r : Registry} (h : r.Sound d) :
    Accounts d r (p.walk d r).log (p.walk d r).registry (p.declares d r) := by
  have hstart : Accounts d r (Walk.start r).log (Walk.start r).registry [] :=
    .quiet h (List.forall_mem_nil _)
  exact Walk.run_declares (I := fun k done => Accounts d r k.log k.registry done)
    (fun k _ w queue _ hk => Walk.visitWire_accounts (k := { k with queue }) hk w) _ hstart

namespace Engine
variable {d : Design} {r : Registry} {e : Engine}

structure Progress.Accounts (d : Design) (r : Registry) (k : Progress)
    (done : List ClockDeclaration) : Prop where
  registry : Registry.Accounts d r k.log k.registry done
  passes : k.passes.foldl (fun n p => n + p.derived) 0 = done.length

theorem Progress.Accounts.step {k : Progress} {done : List ClockDeclaration}
    (h : k.Accounts d r done) (p : Pass) :
    (k.step d p).Accounts d r (done ++ p.declares d k.registry) := by
  have hstarted : Registry.Accounts d k.registry [Notice.started p.name] k.registry [] :=
    .quiet h.registry.sound (List.forall_mem_singleton.mpr rfl)
  refine ⟨h.registry.append (hstarted.append (p.walk_accounts h.registry.sound)), ?_⟩
  rw [List.length_append, ← p.walk_derived h.registry.sound, ← h.passes]
  exact List.foldl_append

/-- The log of a run holds, for each derivation and before its note, one warning when another
generated clock stood on the wire and none when the wire carried no clock. It holds no other
warning that a wire changes hands. -/
theorem history_run_takeovers {ops : List Registry.Operation} {r' : Registry}
    {report : PropagationReport} {log : List Diagnostic}
    (hrun : e.run d (Registry.history d ops) = .ok (report, r', log)) :
    let r := Registry.history d ops
    let made := r.derivations d (e.declares d r)
    r.Leads d (e.declares d r) r' ∧ made.length = report.generated ∧
      log.filterMap Diagnostic.mark? = made.flatMap (Derivation.marks d) ∧
      log.filter (·.code = Notice.wireMoved) = made.flatMap (Derivation.warnings d) ∧
      ∀ v ∈ made, v.Regular d := by
  have hsound := Registry.sound_history d ops
  dsimp only
  generalize Registry.history d ops = r at hrun hsound
  have hdeclares : e.declares d r = emissions (Progress.step d)
      (fun k p => p.declares d k.registry) ⟨r, [], []⟩ e := by
    rw [Engine.declares, hrun]
  have hstart : Progress.Accounts d r ⟨r, [], []⟩ [] :=
    ⟨.quiet hsound (List.forall_mem_nil _), rfl⟩
  have hend : Progress.Accounts d r (e.progress d r) (e.declares d r) :=
    hdeclares ▸ foldl_emissions (fun p _ _ _ hk => hk.step p) hstart
  have hgenerated : report.generated = (e.declares d r).length := by
    rw [PropagationReport.generated, run_passes hrun, hend.passes]
  obtain ⟨rfl, target, rfl⟩ := run_ok hrun
  -- the delay target is reported after the last pass
  have htargeted : Registry.Accounts d (e.progress d r).registry
      (target.toList.map Notice.targeted) (e.progress d r).registry [] :=
    .quiet hend.registry.sound (List.forall_mem_map.mpr fun _ _ => rfl)
  have hlog := hend.registry.append htargeted
  rw [List.append_nil] at hlog
  refine ⟨hlog.leads, ?_, hlog.marks, ?_, hlog.regular⟩
  · rw [Registry.length_derivations, hgenerated]
  · rw [← filterMap_warning?, hlog.marks, List.filterMap_flatMap]
    exact List.flatMap_congr fun v _ => v.filterMap_marks d

def fourBuffers : Design := .chain ["BUFG", "BUFG", "BUFG", "BUFG"]

def staleClocks : List Registry.Operation := [
  .declare (.explicit "clk" [⟨0, 0⟩] 10 none),
  .declare (.generated "n1" [⟨0, 1⟩] (.symmetric 10) "gone"),
  .declare (.generated "g" [⟨0, 2⟩, ⟨0, 3⟩] (.symmetric 10) "gone")]

theorem history_run_takeovers_stale :
    ∃ report r' log, Engine.run [bufferPass] fourBuffers (Registry.history fourBuffers staleClocks) =
        .ok (report, r', log) ∧
      let r := Registry.history fourBuffers staleClocks
      let made := r.derivations fourBuffers (Engine.declares [bufferPass] fourBuffers r)
      (made.map fun v => (v.spec.name, v.before.clocks.map (·.name))) = [
        ("n1", ["clk", "n1", "g"]), ("n2", ["clk", "n1", "g"]),
        ("n3", ["clk", "n1", "g", "n2"]), ("n4", ["clk", "n1", "n2", "n3"])] ∧
      (made.map fun v => (v.warnings fourBuffers).length) = [1, 1, 1, 0] ∧
      log.filter (·.code = Notice.wireMoved) = made.flatMap (Derivation.warnings fourBuffers) := by
  have htop : fourBuffers.topModule?.isSome := by decide
  have hclocks : (Registry.history fourBuffers staleClocks).isEmpty = false := by decide +kernel
  obtain ⟨target, hrun⟩ := run_of_ready (e := [bufferPass]) htop hclocks
  obtain ⟨-, -, -, hwarnings, -⟩ := history_run_takeovers hrun
  exact ⟨_, _, _, hrun, by decide +kernel, by decide +kernel, hwarnings⟩

end Engine
end ClockTree
