import ClockTree.Command.Execute

/-!
# What commands do to the clocks

One command changes the clocks by a declaration and one by a run of the engine. The others, and
commands that fail, leave them as they are. No command changes the design or the engine.
-/
namespace ClockTree.Session
open Command

inductive ClockChange (s : Session) : Command → Registry → Prop where
  | kept {c : Command} (hc : c ≠ .propagateClocks) : ClockChange s c s.clocks
  | declared {spec : ClockDeclaration} {clock : Clock} {r : Registry} {log : List Diagnostic}
      (hspec : spec.origin = .explicit) (hadd : s.clocks.add s.design spec = .ok (clock, r, log)) :
      ClockChange s .createClock r
  | refused {fault : PropagationFault} (hrun : s.engine.run s.design s.clocks = .error fault) :
      ClockChange s .propagateClocks s.clocks
  | propagated {report : PropagationReport} {r : Registry} {log : List Diagnostic}
      (hrun : s.engine.run s.design s.clocks = .ok (report, r, log)) :
      ClockChange s .propagateClocks r

structure Effect (s : Session) (c : Command) (s' : Session) : Prop where
  design : s'.design = s.design
  engine : s'.engine = s.engine
  clocks : s.ClockChange c s'.clocks

theorem Effect.of_kept {s s' : Session} {c : Command} (hc : c ≠ .propagateClocks)
    (hdesign : s'.design = s.design) (hengine : s'.engine = s.engine)
    (hclocks : s'.clocks = s.clocks) : s.Effect c s' :=
  ⟨hdesign, hengine, hclocks ▸ .kept hc⟩

theorem Effect.of_report {s s' : Session} {c : Command} (ds : List Diagnostic)
    (h : (s.report ds).Effect c s') : s.Effect c s' := by
  obtain ⟨hdesign, hengine, hclocks⟩ := h
  refine ⟨hdesign, hengine, ?_⟩
  generalize s'.clocks = r at hclocks
  cases hclocks with
  | kept hc => exact .kept hc
  | declared hspec hadd => exact .declared hspec hadd
  | refused hrun => exact .refused hrun
  | propagated hrun => exact .propagated hrun

section
variable (s : Session) (args : List Argument)

theorem spec_origin {o : CreateClock.Options} {d : Design} {period : Float} {found : List WireKey}
    {spec : ClockDeclaration} (h : o.spec d period found = .ok spec) : spec.origin = .explicit := by
  unfold CreateClock.Options.spec at h
  dsimp only at h
  split at h
  · cases h
  · split at h
    · cases h
      rfl
    · cases h

theorem declare_effect {spec : ClockDeclaration} (hspec : spec.origin = .explicit) {clock : Clock}
    {s' : Session} (h : s.declare spec = .ok (clock, s')) : s.Effect .createClock s' := by
  unfold declare at h
  split at h
  · cases h
  · rename_i hadd
    cases h
    exact ⟨rfl, rfl, .declared hspec hadd⟩

theorem createClock_effect : s.Effect .createClock (CreateClock.run s args).1 := by
  unfold CreateClock.run
  cases CreateClock.readOptions args with
  | error e => exact .of_kept (by decide) rfl rfl rfl
  | ok out =>
    obtain ⟨o, period⟩ := out
    dsimp only
    generalize CreateClock.findTargets s o.targets = found
    refine Effect.of_report found.warnings ?_
    generalize s.report found.warnings = s
    cases found.fault with
    | some e => exact .of_kept (by decide) rfl rfl rfl
    | none =>
      dsimp only
      cases hspec : o.spec s.design period found.wires with
      | error e => exact .of_kept (by decide) rfl rfl rfl
      | ok spec =>
        cases hdeclare : s.declare spec with
        | error e => simpa only [bind, Except.bind, hdeclare] using
            Effect.of_kept (by decide) rfl rfl rfl
        | ok out => simpa only [bind, Except.bind, hdeclare] using
            s.declare_effect (spec_origin hspec) hdeclare

theorem propagateWith_effect : s.Effect .propagateClocks (s.propagateWith args).1 := by
  have hrun : ∀ s : Session, s.Effect .propagateClocks (s.propagateWith []).1 := by
    intro s
    simp only [propagateWith, propagate, List.isEmpty_nil, if_true]
    cases hrun : s.engine.run s.design s.clocks with
    | error fault => exact ⟨rfl, rfl, .refused hrun⟩
    | ok out => exact ⟨rfl, rfl, .propagated hrun⟩
  cases args with
  | nil => exact hrun s
  | cons a args => exact .of_report [Notice.ignoredArguments] (hrun _)

theorem getClocks_effect : s.Effect .getClocks (Lookup.clocks s args).1 := by
  unfold Lookup.clocks lookUp
  split
  · exact .of_kept (by decide) rfl rfl rfl
  · dsimp only
    split <;> exact .of_kept (by decide) rfl rfl rfl

theorem getPorts_effect : s.Effect .getPorts (Lookup.ports s args).1 := by
  unfold Lookup.ports
  split
  · exact .of_kept (by decide) rfl rfl rfl
  · split <;> exact .of_kept (by decide) rfl rfl rfl

theorem getNets_effect : s.Effect .getNets (Lookup.nets s args).1 := by
  unfold Lookup.nets
  dsimp only
  split
  · exact .of_kept (by decide) rfl rfl rfl
  · split <;> exact .of_kept (by decide) rfl rfl rfl

theorem record_effect {c : Command} (hc : c ≠ .propagateClocks)
    (r : Except Fault TimingException) : s.Effect c (s.record r).1 := by
  cases r <;> exact .of_kept hc rfl rfl rfl

theorem perform_effect (c : Command) : s.Effect c (s.perform c args).1 := by
  cases c with
  | createClock => exact s.createClock_effect args
  | getClocks => exact s.getClocks_effect args
  | allClocks => exact .of_kept (by decide) rfl rfl rfl
  | getPorts => exact s.getPorts_effect args
  | getNets => exact s.getNets_effect args
  | propagateClocks => exact s.propagateWith_effect args
  | setFalsePath => exact s.record_effect (by decide) (Constrain.falsePath args)
  | setMaxDelay => exact s.record_effect (by decide) (Constrain.maxDelay args)
  | setClockGroups => exact s.record_effect (by decide) (Constrain.clockGroups args)

end
end ClockTree.Session
