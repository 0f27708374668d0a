import ClockTree.Proofs.Propagation.Idempotence
import ClockTree.Proofs.Propagation.Provenance

/-!
# Runs of one pass

A pass that starts from explicit clocks assigns every wire to which it gives a clock, so a generated
clock is never offered its wire again and no wire changes hands. Every clock that was the source of
another one is still there when the pass is over, and a second run of the pass finds every wire
settled.
-/
namespace ClockTree

theorem Registry.traced_of_explicit {d : Design} {r : Registry}
    (h : ∀ c ∈ r.clocks, c.isGenerated = false) : r.Traced d [] := by
  constructor <;> intro c hc hgen <;> rw [h c hc] at hgen <;> cases hgen

namespace Walk
variable {d : Design} {k k' : Walk}

structure Claims (d : Design) (k : Walk) : Prop where
  sound : k.registry.Sound d
  assigned : ∀ g ∈ k.registry.clocks, g.isGenerated → g.wires ⊆ k.assigned
  calm : Calm k.log

theorem Claims.start {r : Registry} (h : r.Sound d)
    (hexplicit : ∀ c ∈ r.clocks, c.isGenerated = false) : Claims d (.start r) where
  sound := h
  assigned g hg hgen := by
    rw [hexplicit g hg] at hgen
    cases hgen
  calm := List.forall_mem_nil _

theorem Answer.claims {dep : Departure} {target : WireKey} (h : Claims d k)
    (ha : Answer d dep k target k') : Claims d k' := by
  cases ha with
  | assigned => exact h
  | foreign => exact h
  | settled =>
    exact ⟨h.sound, fun g hg hgen => List.subset_cons_of_subset _ (h.assigned g hg hgen), h.calm⟩
  | derived path t log hnew hstale hpath hadd ht hsound hlog =>
    -- a stale clock would be a generated one, whose wire is assigned
    have hfree : k.registry.carrier? target = none := by
      cases hc : k.registry.carrier? target with
      | none => rfl
      | some c =>
        obtain ⟨hmem, hw⟩ := h.sound.coherent.carrier?_eq_some_iff.mp hc
        have hgen := Registry.isGenerated_of_not_settles (hstale c hc)
        exact absurd (h.assigned c hmem hgen hw) hnew
    refine ⟨hsound, fun g hg hgen => ?_, calm_append.mpr ⟨h.calm, fun n hn hcode => ?_⟩⟩
    · obtain ⟨rfl | ⟨b, hb, -, rfl⟩, -⟩ := ht.mem_clocks.mp hg
      · exact List.cons_subset.mpr ⟨List.mem_cons_self, List.nil_subset _⟩
      · unfold Clock.isGenerated at hgen
        rw [Clock.after_origin] at hgen
        intro w hw
        exact List.mem_cons_of_mem _ (h.assigned b hb hgen (Clock.mem_after_wires.mp hw).1)
    · obtain ⟨gone, rfl⟩ := hlog
      have hmoved := Departure.reports_moved_iff.mp ⟨n, hn, hcode⟩
      rw [hfree] at hmoved
      cases hmoved

theorem visitWire_claims {rules : RuleSet} (h : Claims d k) (w : WireKey) :
    Claims d (visitWire rules d d.fanout k w) :=
  visitWire_induction h.sound
    (fun _ _ hcode hk =>
      ⟨hk.sound, hk.assigned, calm_append.mpr ⟨hk.calm, by simpa [Calm] using hcode⟩⟩)
    (fun _ _ _ _ _ _ _ _ ha hk => ha.claims hk) h

end Walk

namespace Pass
variable {d : Design} {r : Registry}

theorem walk_calm (p : Pass) (h : r.Sound d) (hexplicit : ∀ c ∈ r.clocks, c.isGenerated = false) :
    Calm (p.walk d r).log := by
  have hclaims : Walk.Claims d (p.walk d r) :=
    Walk.run_induction
      (fun _ w _ hk _ => Walk.visitWire_claims ⟨hk.sound, hk.assigned, hk.calm⟩ w)
      _ (.start h hexplicit)
  exact hclaims.calm

end Pass

/-- A cell with a rule makes the clock `g` on the wire `t` of its parent, which is on a wire that the
cell reads, as both are registered. -/
def Clock.DerivedAt (g : Clock) (rules : RuleSet) (d : Design) (r : Registry) (t : WireKey) : Prop :=
  ∃ m, d.module? t.module = some m ∧ ∃ cell ∈ m.cells, ∃ rule, rules.get? cell.kind = some rule ∧
    ∃ connection ∈ cell.connections, connection.direction.reads ∧ rule.entersOn connection.port ∧
    ∃ source, r.carrier? ⟨t.module, connection.wire⟩ = some source ∧
      g.origin = .generated source.name ∧
    ∃ out ∈ rule.outputs, t.wire ∈ cell.wiresOn out.port ∧
      out.transform.apply source.wave cell.params = .ok g.wave

theorem Clock.StemsFrom.derivedAt {g p : Clock} {rules : RuleSet} {d : Design} {r : Registry}
    {w t : WireKey} (h : g.StemsFrom rules d w p) (ht : g.wires = [t])
    (hp : r.carrier? w = some p) : g.DerivedAt rules d r t := by
  obtain ⟨horigin, m, hm, cell, hcell, rule, hrule,
    ⟨connection, hconnection, hreads, hwire, henters⟩, out, hout, ⟨i, hi, hmem⟩, happly⟩ := h
  obtain rfl : (⟨w.module, i⟩ : WireKey) = t := by simpa [ht] using hmem
  have hcarrier : r.carrier? ⟨w.module, connection.wire⟩ = some p := by
    rw [hwire]
    exact hp
  exact ⟨m, hm, cell, hcell, rule, hrule, connection, hconnection, hreads, henters, p, hcarrier,
    horigin, out, hout, hi, happly⟩

/-- A multiplexer of two clocks whose output is also driven by a buffer that stands in a circle with
another one. The circle drives an inverter, and a divider whose ratio is not set. -/
def Design.crossing : Design :=
  .single (["a", "b", "x", "y", "z", "q"].map fun name => ⟨name, 1, none⟩) [
    { name := "mux", kind := "BUFGMUX",
      connections := [⟨"I0", .input, 0⟩, ⟨"I1", .input, 1⟩, ⟨"O", .output, 2⟩] },
    { name := "back", kind := "BUFG", connections := [⟨"I", .input, 3⟩, ⟨"O", .output, 2⟩] },
    { name := "forth", kind := "BUFG", connections := [⟨"I", .input, 2⟩, ⟨"O", .output, 3⟩] },
    { name := "inv", kind := "INV", connections := [⟨"I", .input, 3⟩, ⟨"O", .output, 4⟩] },
    { name := "div", kind := "BUFR", connections := [⟨"I", .input, 3⟩, ⟨"O", .output, 5⟩] }]

def Registry.atCrossing : Registry :=
  history .crossing [.declare (.explicit "slow" [⟨0, 1⟩] 10 none),
    .declare (.explicit "fast" [⟨0, 0⟩] 4 (some (1, 2)))]

theorem Registry.atCrossing_sound : atCrossing.Sound .crossing := sound_history _ _

theorem Registry.atCrossing_explicit : ∀ c ∈ atCrossing.clocks, c.isGenerated = false := by
  decide +kernel

namespace Engine
variable {d : Design} {r : Registry}

theorem run_single (p : Pass) (h : r.Sound d) (htop : d.topModule?.isSome)
    (hclocks : r.isEmpty = false) (hexplicit : ∀ c ∈ r.clocks, c.isGenerated = false) :
    ∃ report log, Engine.run [p] d r = .ok (report, (p.walk d r).registry, log) ∧ Calm log := by
  obtain ⟨target, hrun⟩ := run_of_ready (e := [p]) htop hclocks
  refine ⟨_, _, hrun, calm_append.mpr ⟨fun n hn => ?_, calm_targeted target⟩⟩
  obtain rfl | hn : n = Notice.started p.name ∨ n ∈ (p.walk d r).log := List.mem_cons.mp hn
  · simp [Notice.started, Notice.passStarted, Notice.wireMoved]
  · exact p.walk_calm h hexplicit n hn

theorem single_pass_derivations (p : Pass) (h : r.Sound d) (htop : d.topModule?.isSome)
    (hclocks : r.isEmpty = false) (hexplicit : ∀ c ∈ r.clocks, c.isGenerated = false) :
    ∃ report r' log, Engine.run [p] d r = .ok (report, r', log) ∧
      ∀ g ∈ r'.clocks, g.isGenerated → ∃ t, g.wires = [t] ∧ g.DerivedAt p.rules d r' t := by
  obtain ⟨report, log, hrun, hcalm⟩ := run_single p h htop hclocks hexplicit
  refine ⟨report, _, log, hrun, fun g hg hgen => ?_⟩
  have htraced := run_traced h (Registry.traced_of_explicit hexplicit) hrun
  obtain ⟨t, ht⟩ := htraced.single g hg hgen
  obtain ⟨before, v, after, source, hvisits, hmade⟩ := htraced.satisfies g hg hgen
  have hv : v ∈ Engine.visits d [p] r := by
    have hstage : Stage.visit v ∈ [] ++ (Engine.visits d [p] r).map .visit := by
      rw [hvisits]
      exact List.mem_append_right before List.mem_cons_self
    simpa using hstage
  obtain rfl : v.pass = p := List.mem_singleton.mp (visits_pass [p] r v hv)
  have hkept := (run_keeps h hrun hcalm).2 v hv hmade.source
  exact ⟨t, ht, hmade.stems.derivedAt ht
    ((run_sound h hrun).coherent.carrier?_eq_some_iff.mpr ⟨hkept, hmade.onWire⟩)⟩

def mixedPass : Pass := ⟨"mixed", RuleSet.buffers ++ RuleSet.dividers⟩

theorem single_pass_derivations_crossing :
    Design.crossing.topModule?.isSome ∧ Registry.atCrossing.isEmpty = false ∧
      (∀ c ∈ Registry.atCrossing.clocks, c.isGenerated = false) ∧
      ∃ report r' log, Engine.run [mixedPass] .crossing .atCrossing = .ok (report, r', log) ∧
        r'.clocks.map (fun c => (c.name, c.parent?)) = [("slow", none), ("fast", none),
          ("x", some "slow"), ("y", some "x"), ("z", some "y")] ∧
        ∀ g ∈ r'.clocks, g.isGenerated →
          ∃ t, g.wires = [t] ∧ g.DerivedAt mixedPass.rules .crossing r' t := by
  have htop : Design.crossing.topModule?.isSome := by decide
  have hclocks : Registry.atCrossing.isEmpty = false := by decide +kernel
  have hderived : ∀ out ∈ (Engine.run [mixedPass] .crossing .atCrossing).toOption,
      out.2.1.clocks.map (fun c => (c.name, c.parent?)) = [("slow", none), ("fast", none),
        ("x", some "slow"), ("y", some "x"), ("z", some "y")] := by
    decide +kernel
  obtain ⟨report, r', log, hrun, hall⟩ := single_pass_derivations mixedPass
    Registry.atCrossing_sound htop hclocks Registry.atCrossing_explicit
  exact ⟨htop, hclocks, Registry.atCrossing_explicit, report, r', log, hrun,
    hderived _ (by rw [hrun]; rfl), hall⟩

theorem single_pass_idempotent (p : Pass) (h : r.Sound d) (htop : d.topModule?.isSome)
    (hclocks : r.isEmpty = false) (hexplicit : ∀ c ∈ r.clocks, c.isGenerated = false) :
    ∃ report r' log, Engine.run [p] d r = .ok (report, r', log) ∧ Engine.Idle [p] d r' := by
  obtain ⟨report, log, hrun, -⟩ := run_single p h htop hclocks hexplicit
  refine ⟨report, _, log, hrun, (idle_iff (p.walk_sound h) htop (run_inhabited h hclocks hrun)).mpr
    (List.forall_mem_singleton.mpr ?_)⟩
  exact p.atRest_of_calm h (p.walk_calm h hexplicit)

theorem single_pass_idempotent_crossing :
    Design.crossing.topModule?.isSome ∧ Registry.atCrossing.isEmpty = false ∧
      (∀ c ∈ Registry.atCrossing.clocks, c.isGenerated = false) ∧
      ∃ report r' log, Engine.run [mixedPass] .crossing .atCrossing = .ok (report, r', log) ∧
        report.generated = 3 ∧ (∃ n ∈ log, n.code = Notice.malformedElement) ∧
        Engine.Idle [mixedPass] .crossing r' := by
  have htop : Design.crossing.topModule?.isSome := by decide
  have hclocks : Registry.atCrossing.isEmpty = false := by decide +kernel
  have hfirst : ∀ out ∈ (Engine.run [mixedPass] .crossing .atCrossing).toOption,
      out.1.generated = 3 ∧ ∃ n ∈ out.2.2, n.code = Notice.malformedElement := by
    decide +kernel
  obtain ⟨report, r', log, hrun, hidle⟩ := single_pass_idempotent mixedPass
    Registry.atCrossing_sound htop hclocks Registry.atCrossing_explicit
  obtain ⟨hgenerated, hfailed⟩ := hfirst _ (by rw [hrun]; rfl)
  exact ⟨htop, hclocks, Registry.atCrossing_explicit, report, r', log, hrun, hgenerated, hfailed,
    hidle⟩

end Engine
end ClockTree
