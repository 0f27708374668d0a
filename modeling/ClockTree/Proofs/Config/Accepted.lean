import ClockTree.Config.Reader
import ClockTree.Proofs.Rule.Tables
import ClockTree.Proofs.Session.Configuration

/-!
# Configurations that are accepted

The checks of a configuration keep two kinds of failures away from what is built of it: each clock
has a period, so declaring the clocks does not fail for want of one, and a divider never divides by
a ratio of zero. A divider that reads a parameter may have no ratio; then it refuses the cells that
do not set the parameter, and names it.
-/
namespace ClockTree
open Number

/-! ### Faults of declarations -/

namespace Session
variable {s : Session} {fault : Fault} {name : String}

inductive TargetFault (name : String) : Fault → Prop
  | declaration (e : DeclarationFault) : TargetFault name (.declaration e)
  | pattern (e : PatternFault) : TargetFault name (.pattern e)
  | absent (target : String) : TargetFault name (.absent (.clockTarget name target))

theorem configuredWires_error {targets : List String}
    (h : s.configuredWires name targets = .error fault) : TargetFault name fault := by
  induction targets with
  | nil => cases h
  | cons target targets ih =>
    rw [configuredWires] at h
    obtain hmatching | ⟨found, -, h⟩ := bind_eq_error_iff.mp h
    · unfold wiresMatching at hmatching
      split at hmatching
      · cases hmatching
        exact .pattern _
      · cases hmatching
    · split at h
      · cases h
        exact .absent target
      · obtain hrest | ⟨rest, -, h⟩ := bind_eq_error_iff.mp h
        · exact ih hrest
        · cases h

theorem declareConfigured_error {c : ConfiguredClock} {period : Float}
    (hperiod : c.period? = some period) (h : s.declareConfigured name c = .error fault) :
    TargetFault name fault := by
  unfold declareConfigured at h
  rw [hperiod] at h
  obtain hwires | ⟨wires, -, h⟩ := bind_eq_error_iff.mp h
  · exact configuredWires_error hwires
  · unfold declare at h
    split at h
    · cases h
      exact .declaration _
    · cases h

theorem declareAll_fault {clocks : List (String × ConfiguredClock)}
    (hperiods : ∀ e ∈ clocks, (e.2.period?).isSome) (h : (s.declareAll clocks).2 = .error fault) :
    ∃ e ∈ clocks, TargetFault e.1 fault := by
  obtain ⟨done, entry, rest, rfl, -, hentry⟩ := exists_of_go_error (Prod.ext rfl h :
    s.declareAll clocks = ((s.declareAll clocks).1, .error fault))
  have hmem : entry ∈ done ++ entry :: rest := List.mem_append_right _ List.mem_cons_self
  obtain ⟨period, hperiod⟩ := Option.isSome_iff_exists.mp (hperiods entry hmem)
  exact ⟨entry, hmem, declareConfigured_error hperiod hentry⟩

end Session

/-! ### What the checks say -/

namespace Config
variable {c : Config}

@[mk_iff]
structure Shaped (cell : String) (inputs outputs : List String) : Prop where
  cell : cell ≠ ""
  inputs : inputs ≠ []
  outputs : outputs ≠ []

@[mk_iff]
structure Timed (clock : ConfiguredClock) : Prop where
  target : clock.target ≠ []
  period : ∃ p, clock.period? = some p ∧ p.isFinite ∧ 0 < p

@[mk_iff]
structure Checked (c : Config) : Prop where
  passes : ∀ name ∈ c.passes, name ∈ Engine.builtin.map (·.name)
  buffers : ∀ b ∈ c.buffers, Shaped b.cell b.inputs b.outputs
  dividers : ∀ v ∈ c.dividers, Shaped v.cell v.inputs v.outputs ∧
    Transform.Founded v.divisorParam v.divisor
  precision : c.options.precision ≤ ConfigFault.maxPrecision
  clocks : ∀ e ∈ c.clocks, Timed e.2

theorem ite_some_eq_none_iff {α : Type} {p : Prop} [Decidable p] {a : α} {x : Option α} :
    (if p then some a else x) = none ↔ ¬p ∧ x = none := by
  split <;> simp_all

theorem passFault?_eq_none_iff {name : String} :
    passFault? name = none ↔ name ∈ Engine.builtin.map (·.name) := by
  rw [passFault?, ← List.contains_iff_mem]
  split <;> simp_all

theorem shapeFault?_eq_none_iff {place : RulePlace} {cell : String} {inputs outputs : List String} :
    shapeFault? place cell inputs outputs = none ↔ Shaped cell inputs outputs := by
  simp [shapeFault?, shaped_iff, ite_some_eq_none_iff]

theorem bufferFault?_eq_none_iff {i : Nat} {b : BufferRule} :
    bufferFault? i b = none ↔ Shaped b.cell b.inputs b.outputs :=
  shapeFault?_eq_none_iff

theorem dividerFault?_eq_none_iff {i : Nat} {v : DividerRule} :
    dividerFault? i v = none ↔ Shaped v.cell v.inputs v.outputs ∧
      Transform.Founded v.divisorParam v.divisor := by
  rw [dividerFault?, Option.orElse_eq_none, shapeFault?_eq_none_iff, Transform.founded_iff]
  refine and_congr_right fun _ => ?_
  rcases v.divisorParam with _ | param <;> rcases v.divisor with _ | _ | n <;> simp

theorem clockFault?_eq_none_iff {name : String} {clock : ConfiguredClock} :
    clockFault? name clock = none ↔ Timed clock := by
  -- a clock with neither a period nor a frequency has no period either
  have hneither : clock.period.isNone && clock.frequency.isNone → clock.period? = none := by
    unfold ConfiguredClock.period?
    rcases clock.period with _ | p <;> rcases clock.frequency with _ | f <;> simp
  rw [clockFault?, ite_some_eq_none_iff, ite_some_eq_none_iff, timed_iff, List.isEmpty_iff]
  refine and_congr_right fun _ => ?_
  cases hperiod : clock.period? with
  | none => simp
  | some p =>
    have heither : ¬(clock.period.isNone && clock.frequency.isNone) := fun h =>
      absurd (hneither h) (by simp [hperiod])
    rw [and_iff_right heither]
    simp [and_comm]

theorem fault?_eq_none_iff : c.fault? = none ↔ c.Checked := by
  rw [fault?, checked_iff]
  simp only [Option.orElse_eq_none, ite_some_eq_none_iff, not_lt, and_true,
    List.findSome?_eq_none_iff, passFault?_eq_none_iff, bufferFault?_eq_none_iff,
    dividerFault?_eq_none_iff, clockFault?_eq_none_iff, List.forall_mem_iff_getElem,
    List.length_zipIdx, List.getElem_zipIdx]

theorem checked_of_read {text : String} (h : read text = .ok c) : c.Checked := by
  unfold read at h
  split at h
  · cases h
  · split at h
    · cases h
    · split at h
      · cases h
      · rename_i hfault
        cases h
        exact fault?_eq_none_iff.mp hfault

/-! ### Rules -/

theorem mem_extend {builtin : RuleSet} {rules : List Rule} {s : Rule}
    (h : s ∈ c.extend builtin rules) : s ∈ rules ∨ s ∈ builtin := by
  refine (RuleSet.mem_foldl_insert h).imp_right fun hs => ?_
  split at hs
  · exact hs
  · cases hs

theorem mem_engine {p : Pass} {r : Rule} (hp : p ∈ c.engine) (hr : r ∈ p.rules) :
    (∃ b ∈ c.buffers, b.rule = r) ∨ (∃ v ∈ c.dividers, v.rule = r) ∨
      r ∈ RuleSet.buffers ++ RuleSet.dividers := by
  have hp := List.mem_of_mem_filter hp
  simp only [List.mem_cons, List.not_mem_nil, or_false] at hp
  have hbuffers (h : r ∈ c.extend RuleSet.buffers (c.buffers.map BufferRule.rule)) :
      (∃ b ∈ c.buffers, b.rule = r) ∨ r ∈ RuleSet.buffers := (mem_extend h).imp_left List.mem_map.mp
  obtain rfl | rfl | rfl := hp
  · exact (hbuffers hr).imp_right fun h => Or.inr (List.mem_append_left _ h)
  · exact Or.inr ((mem_extend hr).imp List.mem_map.mp (List.mem_append_right _))
  · exact (hbuffers hr).imp_right fun h => Or.inr (List.mem_append_left _ h)

theorem Checked.grounded (h : c.Checked) {p : Pass} (hp : p ∈ c.engine) {r : Rule}
    (hr : r ∈ p.rules) {o : Outlet} (ho : o ∈ r.outputs) : Transform.Grounded o.transform := by
  obtain ⟨b, -, rfl⟩ | ⟨v, hv, rfl⟩ | hr := mem_engine hp hr
  · obtain ⟨port, -, rfl⟩ := List.mem_map.mp ho
    exact .transparent
  · obtain ⟨port, -, rfl⟩ := List.mem_map.mp ho
    exact .divider v.invertParam (h.dividers v hv).2
  · exact (List.mem_append.mp hr).elim (RuleSet.grounded_buffers · ho)
      (RuleSet.grounded_dividers · ho)

/-- Every clock of a configuration that is accepted has a finite positive period, so declaring its
clocks never fails for want of one. Its dividers never divide by a ratio of zero, and they lack a
number only on a cell that does not set the parameter to read; they miss no other parameter. -/
theorem accepted_periods_dividers {text : String} (h : read text = .ok c) :
    (∀ e ∈ c.clocks, ∃ p, e.2.period? = some p ∧ p.isFinite ∧ 0 < p) ∧
    (∀ (s : Session) (name : String),
      (s.declareAll c.clocks).2 ≠ .error (.configuredPeriod name)) ∧
    ∀ p ∈ c.engine, ∀ r ∈ p.rules, ∀ o ∈ r.outputs, ∀ param invert fixed,
      o.transform = .divider param invert fixed → ∀ ps : Params,
        Transform.branch param fixed ps ≠ .ok .zeroRatio ∧
        (Transform.branch param fixed ps = .ok .noRatio ↔
          fixed = none ∧ ∃ name ∈ param, ps.get? name = none) ∧
        ∀ {R : Type} [Scalar R] (w : Wave R) (name : String),
          (Transform.divider param invert fixed).apply w ps = .error (.missing name) ↔
            fixed = none ∧ param = some name ∧ ps.get? name = none := by
  have hchecked := checked_of_read h
  refine ⟨fun e he => (hchecked.clocks e he).period, fun s name hfault => ?_, ?_⟩
  · have hperiods : ∀ e ∈ c.clocks, (e.2.period?).isSome := fun e he => by
      obtain ⟨p, hp, -⟩ := (hchecked.clocks e he).period
      exact Option.isSome_of_eq_some hp
    obtain ⟨e, -, htarget⟩ := Session.declareAll_fault hperiods hfault
    cases htarget
  · intro p hp r hr o ho param invert fixed hdivider ps
    have hfounded := (hdivider ▸ hchecked.grounded hp hr ho).founded
    exact ⟨hfounded.branch_ne_zeroRatio ps, hfounded.branch_eq_noRatio_iff,
      fun w name => hfounded.apply_eq_missing_iff⟩

def gearText : String :=
  "[clocks.sys]\ntarget = \"clk\"\nfrequency = \"100MHz\"\n[[propagation.dividers]]\n"
    ++ "cell = \"GEAR\"\ninputs = \"CLK\"\noutputs = \"Q\"\ndivisor_param = \"N\"\n"

def gear : Config where
  dividers := [⟨"GEAR", ["CLK"], ["Q"], some "N", none, none⟩]
  clocks := [("sys", ⟨["clk"], none, some "100MHz", none⟩)]

theorem read_gearText : read gearText = .ok gear :=
  eq_ok_of_toOption (by decide +kernel)

theorem divider_mem_gear : ∃ p ∈ gear.engine, ∃ r ∈ p.rules, ∃ o ∈ r.outputs,
    o.transform = .divider (some "N") none none := by
  let v : DividerRule := ⟨"GEAR", ["CLK"], ["Q"], some "N", none, none⟩
  have hpass : ⟨"dividers", RuleSet.dividers.insert v.rule⟩ ∈ gear.engine :=
    List.mem_filter.mpr ⟨List.mem_cons_of_mem _ List.mem_cons_self, rfl⟩
  exact ⟨_, hpass, v.rule, RuleSet.mem_insert_self _ _, _, List.mem_singleton_self _, rfl⟩

theorem accepted_periods_dividers_gear :
    read gearText = .ok gear ∧
    (∃ p, (ConfiguredClock.mk ["clk"] none (some "100MHz") none).period? = some p ∧
      p.isFinite ∧ 0 < p) ∧
    (∀ s : Session, (s.declareAll gear.clocks).2 ≠ .error (.configuredPeriod "sys")) ∧
    ∃ p ∈ gear.engine, ∃ r ∈ p.rules, ∃ o ∈ r.outputs, ∀ w : Wave Float,
      o.transform.apply w [] = .error (.missing "N") := by
  obtain ⟨hperiods, hdeclares, hdividers⟩ := accepted_periods_dividers read_gearText
  refine ⟨read_gearText, hperiods _ List.mem_cons_self, fun s => hdeclares s "sys", ?_⟩
  obtain ⟨p, hp, r, hr, o, ho, hdivider⟩ := divider_mem_gear
  obtain ⟨-, -, hmissing⟩ := hdividers p hp r hr o ho _ _ _ hdivider []
  exact ⟨p, hp, r, hr, o, ho, fun w => hdivider ▸ (hmissing w "N").mpr ⟨rfl, rfl, rfl⟩⟩

theorem accepted_without_number :
    ∃ c, read gearText = .ok c ∧ ∃ p ∈ c.engine, ∃ r ∈ p.rules, ∃ o ∈ r.outputs,
      ∃ param invert fixed, o.transform = .divider param invert fixed ∧
        Transform.branch param fixed [] = .ok .noRatio := by
  obtain ⟨p, hp, r, hr, o, ho, hdivider⟩ := divider_mem_gear
  exact ⟨gear, read_gearText, p, hp, r, hr, o, ho, _, _, _, hdivider, rfl⟩

end Config
end ClockTree
