import ClockTree.Proofs.Session.Roundtrip

/-!
# Configurations that cannot be declared

Whether a configured clock can be declared depends on the design alone, so the entry at which a
configuration fails is the first that could not be declared before it either. What stands in front
of it has been declared and stays declared.
-/
namespace ClockTree.Session
variable {d : Design} {s t : Session}

theorem configuredWires_congr (h : t.design = s.design) (name : String) (targets : List String) :
    t.configuredWires name targets = s.configuredWires name targets := by
  have hmatching : t.wiresMatching = s.wiresMatching := by
    funext pattern
    rw [wiresMatching, wiresMatching, h]
  induction targets with
  | nil => rfl
  | cons target targets ih => rw [configuredWires, configuredWires, hmatching, ih]

theorem declare_error_congr (hs : s.Regular d) (ht : t.Regular d) {spec : ClockDeclaration}
    {fault : Fault} (h : s.declare spec = .error fault) : t.declare spec = .error fault := by
  unfold declare at h ⊢
  rw [hs.design] at h
  rw [ht.design]
  obtain ⟨reason, hreason, hadd⟩ | ⟨transfer, -, -, -, hadd⟩ := hs.sound.add_cases spec
  · obtain ⟨reason', hreason', hadd'⟩ | ⟨transfer, hnone, -⟩ := ht.sound.add_cases spec
    · obtain rfl := Option.some.inj (hreason.symm.trans hreason')
      rw [hadd']
      rwa [hadd] at h
    · cases hreason.symm.trans hnone
  · rw [hadd] at h
    cases h

theorem declareConfigured_error_congr (hs : s.Regular d) (ht : t.Regular d) {name : String}
    {c : ConfiguredClock} {fault : Fault} (h : s.declareConfigured name c = .error fault) :
    t.declareConfigured name c = .error fault := by
  unfold declareConfigured at h ⊢
  rw [configuredWires_congr (ht.design.trans hs.design.symm)]
  cases hperiod : c.period? with
  | none => rwa [hperiod] at h
  | some period =>
    rw [hperiod] at h
    dsimp only at h ⊢
    cases hwires : s.configuredWires name c.target with
    | error reason => rwa [hwires] at h
    | ok wires =>
      rw [hwires] at h
      exact declare_error_congr hs ht h

structure Declares (s : Session) (name : String) (t : Session) : Prop where
  exceptions : t.exceptions = s.exceptions
  delayTarget : t.delayTarget = s.delayTarget
  clock : ∃ c ∈ t.clocks.clocks, c.name = name

theorem declare_declares (hs : s.Regular d) {spec : ClockDeclaration} {clock : Clock}
    (h : s.declare spec = .ok (clock, t)) : s.Declares spec.name t := by
  obtain ⟨rfl, -, hclock, -⟩ := hs.registers h
  unfold declare at h
  split at h
  · cases h
  · cases h
    exact ⟨rfl, rfl, spec.clock, hclock, rfl⟩

theorem declareConfigured_ok (hs : s.Regular d) {name : String} {c : ConfiguredClock}
    {clock : Clock} (h : s.declareConfigured name c = .ok (clock, t)) :
    t.Regular d ∧ s.Declares name t := by
  unfold declareConfigured at h
  split at h
  · cases h
  · obtain ⟨wires, -, hdeclare⟩ := bind_eq_ok_iff.mp h
    exact ⟨hs.declare hdeclare, declare_declares hs hdeclare⟩

inductive DeclaresEach : Session → List (String × ConfiguredClock) → Session → Prop where
  | nil (s : Session) : DeclaresEach s [] s
  | cons {s s' t : Session} {entry : String × ConfiguredClock} {clock : Clock}
      {entries : List (String × ConfiguredClock)}
      (hentry : s.declareConfigured entry.1 entry.2 = .ok (clock, s'))
      (rest : DeclaresEach s' entries t) : DeclaresEach s (entry :: entries) t

namespace DeclaresEach
variable {entries : List (String × ConfiguredClock)}

theorem go_eq (h : s.DeclaresEach entries t) (total : List (String × ConfiguredClock)) :
    declareAll.go total s entries = (t, .ok total.length) := by
  induction h with
  | nil s => rfl
  | cons hentry _ ih =>
    rw [declareAll.go, hentry]
    exact ih

theorem regular (h : s.DeclaresEach entries t) (hs : s.Regular d) : t.Regular d := by
  induction h with
  | nil s => exact hs
  | cons hentry _ ih => exact ih (declareConfigured_ok hs hentry).1

theorem keeps (h : s.DeclaresEach entries t) (hs : s.Regular d) :
    t.exceptions = s.exceptions ∧ t.delayTarget = s.delayTarget := by
  induction h with
  | nil s => exact ⟨rfl, rfl⟩
  | cons hentry _ ih =>
    obtain ⟨hregular, hdeclares⟩ := declareConfigured_ok hs hentry
    obtain ⟨hexceptions, hdelay⟩ := ih hregular
    exact ⟨hexceptions.trans hdeclares.exceptions, hdelay.trans hdeclares.delayTarget⟩

theorem each_isOk (h : s.DeclaresEach entries t) (hs : s.Regular d) :
    ∀ entry ∈ entries, (s.declareConfigured entry.1 entry.2).isOk := by
  induction h with
  | nil s => exact List.forall_mem_nil _
  | @cons s s' t entry clock entries hentry _ ih =>
    have hregular := (declareConfigured_ok hs hentry).1
    refine List.forall_mem_cons.mpr ⟨by rw [hentry]; rfl, fun e he => ?_⟩
    cases hfirst : s.declareConfigured e.1 e.2 with
    | ok out => rfl
    | error fault =>
      have hlater := ih hregular e he
      rw [declareConfigured_error_congr hs hregular hfirst] at hlater
      cases hlater

/-- In the end there is a clock with the name of an entry, as the last declaration wins. -/
theorem exists_clock (h : s.DeclaresEach entries t) (hs : s.Regular d) (hne : entries ≠ []) :
    ∃ c ∈ t.clocks.clocks, ∃ entry ∈ entries, c.name = entry.1 := by
  induction h with
  | nil s => exact absurd rfl hne
  | @cons s s' t entry clock entries hentry rest ih =>
    obtain ⟨hregular, hdeclares⟩ := declareConfigured_ok hs hentry
    cases rest with
    | nil =>
      obtain ⟨c, hc, hname⟩ := hdeclares.clock
      exact ⟨c, hc, entry, List.mem_cons_self, hname⟩
    | cons hentry' rest' =>
      obtain ⟨c, hc, e, he, hname⟩ := ih hregular (List.cons_ne_nil _ _)
      exact ⟨c, hc, e, List.mem_cons_of_mem _ he, hname⟩

end DeclaresEach

theorem exists_of_go_error {total clocks : List (String × ConfiguredClock)} {fault : Fault}
    (h : declareAll.go total s clocks = (t, .error fault)) :
    ∃ done entry rest, clocks = done ++ entry :: rest ∧ s.DeclaresEach done t ∧
      t.declareConfigured entry.1 entry.2 = .error fault := by
  induction clocks generalizing s with
  | nil => cases h
  | cons entry clocks ih =>
    rw [declareAll.go] at h
    cases hentry : s.declareConfigured entry.1 entry.2 with
    | error reason =>
      rw [hentry] at h
      cases h
      exact ⟨[], entry, clocks, rfl, .nil _, hentry⟩
    | ok out =>
      obtain ⟨clock, s'⟩ := out
      rw [hentry] at h
      obtain ⟨done, last, rest, rfl, hdone, hlast⟩ := ih h
      exact ⟨entry :: done, last, rest, rfl, .cons hentry hdone, hlast⟩

/-- A configuration that fails leaves the clocks of the entries before the one at fault, so where no
clock has one of their names yet, the clocks are those from before only if the first entry is at
fault. Exceptions and the delay target stay. -/
theorem declareAll_error (d : Design) (actions : List Action)
    {clocks : List (String × ConfiguredClock)} {fault : Fault} {t : Session}
    (h : (after d actions).declareAll clocks = (t, .error fault)) :
    let s := after d actions
    ∃ done entry rest, clocks = done ++ entry :: rest ∧
      (∀ e ∈ done, (s.declareConfigured e.1 e.2).isOk) ∧
      s.declareConfigured entry.1 entry.2 = .error fault ∧
      s.declareAll done = (t, .ok done.length) ∧
      t.exceptions = s.exceptions ∧ t.delayTarget = s.delayTarget ∧ (done = [] → t = s) ∧
      ((∀ c ∈ s.clocks.clocks, ∀ e ∈ done, c.name ≠ e.1) →
        (t.clocks.clocks = s.clocks.clocks ↔ done = [])) := by
  have hs := after_regular d actions
  dsimp only
  generalize after d actions = s at hs h
  obtain ⟨done, entry, rest, rfl, hdone, hentry⟩ := exists_of_go_error h
  obtain ⟨hexceptions, hdelay⟩ := hdone.keeps hs
  have hsame : done = [] → t = s := by
    rintro rfl
    cases hdone
    rfl
  refine ⟨done, entry, rest, rfl, hdone.each_isOk hs,
    declareConfigured_error_congr (hdone.regular hs) hs hentry, hdone.go_eq done, hexceptions,
    hdelay, hsame, fun hnew => ⟨fun hclocks => ?_, fun hnone => by rw [hsame hnone]⟩⟩
  refine Classical.byContradiction fun hne => ?_
  obtain ⟨c, hc, e, he, hname⟩ := hdone.exists_clock hs hne
  exact hnew c (hclocks ▸ hc) e he hname

def benchClocks : List (String × ConfiguredClock) :=
  [("a", ⟨["clk"], some 10, none, none⟩), ("b", ⟨["rts"], some 5, none, none⟩)]

theorem declareAll_error_bench :
    let s := after bench []
    let fault := Fault.absent (.clockTarget "b" "rts")
    s.declareAll benchClocks = ((s.declareAll benchClocks).1, .error fault) ∧
      ∃ done entry rest, benchClocks = done ++ entry :: rest ∧
        (∀ e ∈ done, (s.declareConfigured e.1 e.2).isOk) ∧
        s.declareConfigured entry.1 entry.2 = .error fault ∧
        s.declareAll done = ((s.declareAll benchClocks).1, .ok done.length) ∧
        (s.declareAll benchClocks).1.exceptions = s.exceptions ∧
        (s.declareAll benchClocks).1.delayTarget = s.delayTarget ∧
        (done = [] → (s.declareAll benchClocks).1 = s) ∧
        ((∀ c ∈ s.clocks.clocks, ∀ e ∈ done, c.name ≠ e.1) →
          ((s.declareAll benchClocks).1.clocks.clocks = s.clocks.clocks ↔ done = [])) := by
  have hfault : ((after bench []).declareAll benchClocks).2 =
      .error (.absent (.clockTarget "b" "rts")) := by decide +kernel
  have h : (after bench []).declareAll benchClocks = (((after bench []).declareAll benchClocks).1,
      .error (.absent (.clockTarget "b" "rts"))) := by rw [← hfault]
  exact ⟨h, declareAll_error bench [] h⟩

theorem declareAll_keeps_first :
    let s := after bench []
    (s.declareAll benchClocks).2 = .error (.absent (.clockTarget "b" "rts")) ∧
      s.clocks.clocks = [] ∧
      (s.declareAll benchClocks).1.clocks.clocks.map (·.name) = ["a"] := by
  decide +kernel

end ClockTree.Session
