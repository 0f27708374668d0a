import ClockTree.Proofs.Command.Effect
import ClockTree.Proofs.Propagation.Idempotence
import ClockTree.Proofs.Propagation.Provenance

/-!
# Generated clocks in a session

Whatever commands are run, a generated clock is what a cell made of its parent as the parent was
when the clock was derived. It fits its parent for as long as no other clock gets the parent's name
or one of its wires. The parent may be declared anew afterwards, and the generated clock stays as it
is. While commands only add clocks, every generated clock fits its parent.
-/
namespace ClockTree.Session
open Command

def performAll (s : Session) (cs : List (Command × List Argument)) : Session :=
  cs.foldl (fun s c => (s.perform c.1 c.2).1) s

def stages (s : Session) (c : Command) : List Stage :=
  .command s.clocks :: match c, s.engine.run s.design s.clocks with
    | .propagateClocks, .ok _ => (s.engine.visits s.design s.clocks).map .visit
    | _, _ => []

def stagesOf : Session → List (Command × List Argument) → List Stage
  | _, [] => []
  | s, c :: cs => s.stages c.1 ++ stagesOf (s.perform c.1 c.2).1 cs

/-- A command keeps the registered clocks, and a propagation also those that it derives on the
way. -/
def Keeps (s : Session) (c : Command) (args : List Argument) : Prop :=
  if c = .propagateClocks then ∀ out ∈ (s.engine.run s.design s.clocks).toOption, Calm out.2.2
  else s.clocks.clocks ⊆ (s.perform c args).1.clocks.clocks

def Undisturbed : Session → List (Command × List Argument) → Prop
  | _, [] => True
  | s, c :: cs => s.Keeps c.1 c.2 ∧ Undisturbed (s.perform c.1 c.2).1 cs

instance (s : Session) (c : Command) (args : List Argument) : Decidable (s.Keeps c args) :=
  inferInstanceAs (Decidable (if c = .propagateClocks then
      ∀ out ∈ (s.engine.run s.design s.clocks).toOption, Calm out.2.2
    else s.clocks.clocks ⊆ (s.perform c args).1.clocks.clocks))

instance decidableUndisturbed :
    (s : Session) → (cs : List (Command × List Argument)) → Decidable (s.Undisturbed cs)
  | _, [] => isTrue trivial
  | s, c :: cs =>
    have := decidableUndisturbed (s.perform c.1 c.2).1 cs
    inferInstanceAs (Decidable (s.Keeps c.1 c.2 ∧ Undisturbed (s.perform c.1 c.2).1 cs))

section
variable {s : Session} {past : List Stage}

structure Traced (s : Session) (past : List Stage) : Prop where
  sound : s.clocks.Sound s.design
  clocks : s.clocks.Traced s.design past
  passes : ∀ v, .visit v ∈ past → v.pass ∈ s.engine

theorem stages_of_run {out : PropagationReport × Registry × List Diagnostic}
    (hrun : s.engine.run s.design s.clocks = .ok out) :
    s.stages .propagateClocks =
      .command s.clocks :: (s.engine.visits s.design s.clocks).map .visit := by
  simp only [stages, hrun]

theorem stages_of_refused {fault : PropagationFault}
    (hrun : s.engine.run s.design s.clocks = .error fault) :
    s.stages .propagateClocks = [.command s.clocks] := by
  simp only [stages, hrun]

theorem stages_of_ne {c : Command} (hc : c ≠ .propagateClocks) :
    s.stages c = [.command s.clocks] := by
  unfold stages
  split
  · exact absurd rfl hc
  · rfl

theorem stages_pass (s : Session) (c : Command) {v : Visit} (hv : .visit v ∈ s.stages c) :
    v.pass ∈ s.engine := by
  obtain hv | hv := List.mem_cons.mp hv
  · cases hv
  · split at hv
    · obtain ⟨v, hv, same⟩ := List.mem_map.mp hv
      cases same
      exact Engine.visits_pass s.engine s.clocks v hv
    · cases hv

theorem perform_traced (h : s.Traced past) (c : Command) (args : List Argument) :
    (s.perform c args).1.Traced (past ++ s.stages c) := by
  obtain ⟨hdesign, hengine, hclocks⟩ := s.perform_effect args c
  have hpasses : ∀ v, .visit v ∈ past ++ s.stages c → v.pass ∈ (s.perform c args).1.engine := by
    intro v hv
    rw [hengine]
    exact (List.mem_append.mp hv).elim (h.passes v) (s.stages_pass c)
  suffices hafter : (s.perform c args).1.clocks.Sound s.design ∧
      (s.perform c args).1.clocks.Traced s.design (past ++ s.stages c) from
    ⟨hdesign ▸ hafter.1, hdesign ▸ hafter.2, hpasses⟩
  generalize (s.perform c args).1.clocks = r at hclocks
  cases hclocks with
  | kept hc =>
    rw [stages_of_ne hc]
    exact ⟨h.sound, h.clocks.idle⟩
  | declared hspec hadd =>
    rw [stages_of_ne (by decide)]
    exact ⟨h.sound.of_add hadd, h.clocks.declare h.sound hspec hadd⟩
  | refused hrun =>
    rw [stages_of_refused hrun]
    exact ⟨h.sound, h.clocks.idle⟩
  | propagated hrun =>
    rw [stages_of_run hrun, List.append_cons]
    exact ⟨Engine.run_sound h.sound hrun, Engine.run_traced h.sound h.clocks.idle hrun⟩

theorem performAll_traced (h : s.Traced past) (cs : List (Command × List Argument)) :
    (s.performAll cs).Traced (past ++ s.stagesOf cs) := by
  induction cs generalizing s past with
  | nil => simpa [performAll, stagesOf] using h
  | cons c cs ih =>
    rw [stagesOf, ← List.append_assoc]
    exact ih (perform_traced h c.1 c.2)

theorem perform_keeps (h : s.clocks.Sound s.design) {c : Command} {args : List Argument}
    (hkeeps : s.Keeps c args) :
    ∀ t ∈ s.stages c, t.registry.clocks ⊆ (s.perform c args).1.clocks.clocks := by
  have hclocks := (s.perform_effect args c).clocks
  by_cases hc : c = .propagateClocks
  · subst hc
    simp only [Keeps, if_true] at hkeeps
    generalize (s.perform .propagateClocks args).1.clocks = r at hclocks
    cases hclocks with
    | kept hc => exact absurd rfl hc
    | refused hrun =>
      rw [stages_of_refused hrun]
      exact List.forall_mem_singleton.mpr (List.Subset.refl _)
    | propagated hrun =>
      obtain ⟨hbefore, hvisits⟩ := Engine.run_keeps h hrun (hkeeps _ (by rw [hrun]; rfl))
      rw [stages_of_run hrun]
      exact List.forall_mem_cons.mpr ⟨hbefore, List.forall_mem_map.mpr hvisits⟩
  · simp only [Keeps, hc, if_false] at hkeeps
    rw [stages_of_ne hc]
    exact List.forall_mem_singleton.mpr hkeeps

theorem stages_head (s : Session) (c : Command) : .command s.clocks ∈ s.stages c :=
  List.mem_cons_self

theorem performAll_keeps (h : s.Traced past) {cs : List (Command × List Argument)}
    (hkeeps : s.Undisturbed cs) :
    s.clocks.clocks ⊆ (s.performAll cs).clocks.clocks ∧
      ∀ t ∈ s.stagesOf cs, t.registry.clocks ⊆ (s.performAll cs).clocks.clocks := by
  induction cs generalizing s past with
  | nil => exact ⟨List.Subset.refl _, List.forall_mem_nil _⟩
  | cons c cs ih =>
    obtain ⟨hhead, htail⟩ := hkeeps
    have hfirst := perform_keeps h.sound hhead
    obtain ⟨hrest, hstages⟩ := ih (perform_traced h c.1 c.2) htail
    exact ⟨List.Subset.trans (hfirst _ (s.stages_head c.1)) hrest,
      List.forall_mem_append.mpr ⟨fun t ht => List.Subset.trans (hfirst t ht) hrest, hstages⟩⟩

theorem performAll_design (cs : List (Command × List Argument)) (s : Session) :
    (s.performAll cs).design = s.design ∧ (s.performAll cs).engine = s.engine := by
  induction cs generalizing s with
  | nil => exact ⟨rfl, rfl⟩
  | cons c cs ih =>
    obtain ⟨hdesign, hengine⟩ := ih (s.perform c.1 c.2).1
    have heffect := s.perform_effect c.2 c.1
    exact ⟨hdesign.trans heffect.design, hengine.trans heffect.engine⟩

theorem reset_traced (s : Session) : s.reset.Traced [] where
  sound := Registry.Sound.empty
  clocks := Registry.traced_empty
  passes _ hv := by cases hv

theorem exists_made (s : Session) (cs : List (Command × List Argument)) {g : Clock}
    (hg : g ∈ (s.reset.performAll cs).clocks.clocks) (hgen : g.isGenerated) :
    ∃ before v after p, s.reset.stagesOf cs = before ++ .visit v :: after ∧ v.pass ∈ s.engine ∧
      v.Made s.design (after.map (·.registry) ++ [(s.reset.performAll cs).clocks]) p g := by
  have htraced := performAll_traced s.reset_traced cs
  obtain ⟨hdesign, hengine⟩ := performAll_design cs s.reset
  obtain ⟨before, v, after, p, hstages, hv⟩ := htraced.clocks.satisfies g hg hgen
  rw [hdesign] at hv
  have hpass : v.pass ∈ (s.reset.performAll cs).engine := htraced.passes v (by simp [hstages])
  rw [hengine] at hpass
  exact ⟨before, v, after, p, hstages, hpass, hv⟩

theorem generated_clocks_stem (s : Session) (cs : List (Command × List Argument)) :
    (∀ g ∈ (s.reset.performAll cs).clocks.clocks, g.isGenerated →
      ∃ before v after p, s.reset.stagesOf cs = before ++ .visit v :: after ∧ v.pass ∈ s.engine ∧
        v.Made s.design (after.map (·.registry) ++ [(s.reset.performAll cs).clocks]) p g) ∧
    (s.reset.Undisturbed cs → (s.reset.performAll cs).clocks.UpToDate s.engine s.design) := by
  refine ⟨fun g hg hgen => s.exists_made cs hg hgen, fun hkeeps g hg hgen => ?_⟩
  obtain ⟨before, v, after, p, hstages, hpass, hv⟩ := s.exists_made cs hg hgen
  have hmem : .visit v ∈ s.reset.stagesOf cs := by simp [hstages]
  have hsource := (performAll_keeps s.reset_traced hkeeps).2 _ hmem hv.source
  exact ⟨p, hsource, v.wire, hv.onWire, v.pass, hpass, hv.stems⟩

end

def declareOn (wire name period : String) : Command × List Argument :=
  (.createClock, ["-name", name, "-period", period, wire].map .word)

instance (cell : Cell) (rules : RuleSet) (w : WireKey) (p g : Clock) :
    Decidable (cell.Makes rules w p g) :=
  inferInstanceAs (Decidable (∃ rule ∈ rules.get? cell.kind, _ ∧ _))

instance (g : Clock) (rules : RuleSet) (d : Design) (w : WireKey) (p : Clock) :
    Decidable (g.StemsFrom rules d w p) :=
  inferInstanceAs (Decidable (_ ∧ _))

instance (e : Engine) (d : Design) : DecidablePred (Registry.UpToDate e d) := fun r =>
  inferInstanceAs (Decidable (∀ g ∈ r.clocks, _))

instance (r : Registry) (p : Clock) : Decidable (r.Undisputed p) :=
  inferInstanceAs (Decidable (∀ c ∈ r.clocks, _ ∨ ¬ (∀ w ∈ c.wires, w ∉ p.wires) → _))

/-- While commands only add clocks, and when the only clock that is declared anew is another one. -/
theorem generated_clocks_stem_buffered :
    let s : Session := { design := .chain ["BUFG", "LUT1"] }
    let added := [declareOn "n0" "clk" "10", declareOn "n2" "other" "4", (.propagateClocks, [])]
    let renewed := added ++ [declareOn "n2" "other" "8"]
    s.reset.Undisturbed added ∧ (s.reset.performAll added).clocks.UpToDate s.engine s.design ∧
      ¬ s.reset.Undisturbed renewed ∧
      (s.reset.performAll renewed).clocks.clocks.map (fun c => (c.name, c.parent?)) =
        [("clk", none), ("other", none), ("n1", some "clk")] ∧
      (s.reset.performAll renewed).clocks.UpToDate s.engine s.design := by
  intro s added renewed
  have hadded : s.reset.Undisturbed added := by decide +kernel
  have hrenewed : ¬ s.reset.Undisturbed renewed := by decide +kernel
  have hclk : ∀ t ∈ s.reset.stagesOf renewed, ∀ p ∈ t.registry.clocks, p.name = "clk" →
      (∀ t' ∈ s.reset.stagesOf renewed, t'.registry.Undisputed p) ∧
        (s.reset.performAll renewed).clocks.Undisputed p := by
    decide +kernel
  have hparents : ∀ g ∈ (s.reset.performAll renewed).clocks.clocks, g.isGenerated →
      g.parent? = some "clk" := by
    decide +kernel
  refine ⟨hadded, (s.generated_clocks_stem added).2 hadded, hrenewed, by decide +kernel,
    fun g hg hgen => ?_⟩
  obtain ⟨before, v, after, p, hstages, hpass, hmade⟩ :=
    (s.generated_clocks_stem renewed).1 g hg hgen
  have hname : p.name = "clk" := by
    have hparent := hparents g hg hgen
    rw [Clock.parent?, hmade.stems.1] at hparent
    exact Option.some.inj hparent
  obtain ⟨hbefore, hlast⟩ := hclk (.visit v) (by simp [hstages]) p hmade.source hname
  have hp : p ∈ (s.reset.performAll renewed).clocks.clocks := by
    refine hmade.parent _ List.prefix_rfl (List.forall_mem_append.mpr
      ⟨List.forall_mem_map.mpr fun t ht => hbefore t ?_, List.forall_mem_singleton.mpr hlast⟩)
      _ (by simp)
    simp [hstages, ht]
  exact ⟨p, hp, v.wire, hmade.onWire, v.pass, hpass, hmade.stems⟩

/-- A parent that is declared anew, or that loses its wires, leaves the generated clock behind. -/
theorem generated_clocks_stale :
    let s : Session := { design := .chain ["BUFG", "LUT1"] }
    let renewed := s.performAll [declareOn "n0" "clk" "10", (.propagateClocks, []),
      declareOn "n0" "clk" "20"]
    let dropped := s.performAll [declareOn "n0" "clk" "10", (.propagateClocks, []),
      declareOn "n2" "clk" "10", declareOn "n2" "other" "10"]
    (∀ t ∈ [renewed, dropped], (t.perform .propagateClocks []).2.isOk ∧
      ¬ (t.perform .propagateClocks []).1.clocks.UpToDate s.engine s.design) ∧
    (renewed.perform .propagateClocks []).1.clocks.clocks.map (fun c => (c.name, c.wave.period)) =
      [("clk", 20), ("n1", 10)] ∧
    (dropped.perform .propagateClocks []).1.clocks.clocks.map (fun c => (c.name, c.parent?)) =
      [("n1", some "clk"), ("other", none)] := by
  decide +kernel

end ClockTree.Session
