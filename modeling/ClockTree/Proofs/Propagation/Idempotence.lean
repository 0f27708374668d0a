import ClockTree.Proofs.Netlist.Built
import ClockTree.Proofs.Propagation.History
import ClockTree.Proofs.Propagation.Rest

/-!
# Running an engine twice

A pass during which no wire changes hands is at rest in the registry that it leaves: the second pass
visits the same wires in the same order, and what settled a wire the first time still does. A pass
that comes earlier in the engine stays at rest only if the later passes open no new way for it.
-/
namespace ClockTree

section
variable {d : Design} {r r' : Registry}

theorem Registry.Settled.mono {o : Offer} (h : r.Sound d) (h' : r'.Sound d)
    (hext : r.clocks <+: r'.clocks) (hs : r.Settled o) : r'.Settled o := by
  obtain ⟨c, hc, hsettles⟩ := hs
  exact Registry.settled_mono h h h' hext.subset hext hc hsettles

theorem FirstSettled.mono {os : List Offer} (h : r.Sound d) (h' : r'.Sound d)
    (hext : r.clocks <+: r'.clocks) (hs : FirstSettled d r os) : FirstSettled d r' os :=
  fun t ht o ho => (hs t ht o ho).mono h h' hext

theorem Registry.offersAt_mono (rules : RuleSet) (h : r.Sound d) (h' : r'.Sound d)
    (hext : r.clocks <+: r'.clocks) {w : WireKey} (hw : w ∈ r.wires) :
    r'.offersAt rules d w = r.offersAt rules d w := by
  obtain ⟨c, hc⟩ := h.coherent.mem_wires_iff.mp hw
  simp only [Registry.offersAt, hc, Registry.carrier?_mono h h' hext.subset hc]

theorem Pass.AtRest.mono {p : Pass} (h : r.Sound d) (h' : r'.Sound d)
    (hext : r.clocks <+: r'.clocks) (hrest : p.AtRest d r)
    (hnew : ∀ w ∈ r'.wires, w ∉ r.wires → r'.offersAt p.rules d w = []) : p.AtRest d r' := by
  have hoffers : p.offers d r' = p.offers d r := by
    -- the old wires make the offers that they made, and the new ones make none
    obtain ⟨news, hnews⟩ := hext
    have hwires : r'.wires = r.wires ++ news.flatMap (·.wires) := by
      simp only [Registry.wires, ← hnews, List.flatMap_append]
    have hfresh : (news.flatMap (·.wires)).flatMap (r'.offersAt p.rules d) = [] := by
      refine List.flatMap_eq_nil_iff.mpr fun w hw => hnew w ?_ fun hold => ?_
      · rw [hwires]
        exact List.mem_append_right _ hw
      · have hdisjoint := h'.disjoint
        rw [← hnews, List.pairwise_append] at hdisjoint
        obtain ⟨b, hb, hwb⟩ := List.mem_flatMap.mp hw
        obtain ⟨a, ha, hwa⟩ := List.mem_flatMap.mp hold
        exact hdisjoint.2.2 a ha b hb hwa hwb
    have hold : r.wires.flatMap (r'.offersAt p.rules d) = p.offers d r :=
      List.flatMap_congr fun w hw => Registry.offersAt_mono p.rules h h' ⟨news, hnews⟩ hw
    unfold Pass.offers
    rw [hwires, List.flatMap_append, hfresh, List.append_nil, hold, Pass.offers]
  unfold Pass.AtRest
  rw [hoffers]
  exact FirstSettled.mono h h' hext hrest

end

namespace Walk
variable {d : Design} {rules : RuleSet} {w : WireKey} {source : Clock}

theorem source_mem_arriving {r : Registry} {o : Offer}
    (ho : o ∈ Offer.fromWire rules d w source) (hc : r.carrier? w = some source) :
    o.source.name ∈ arriving r o.target.module o.rule o.cell := by
  obtain ⟨hsource, -, -, ⟨connection, hconnection, hreads, hwire, henters⟩, out, -, htarget, -⟩ :=
    mem_fromWire ho
  obtain ⟨i, -, htarget⟩ := List.mem_map.mp htarget
  have hinput : connection ∈ o.cell.inputs := List.mem_filter.mpr ⟨hconnection, hreads⟩
  refine List.mem_filterMap.mpr ⟨connection, List.mem_filter.mpr ⟨hinput, henters⟩, ?_⟩
  rw [← htarget, hwire, hc, hsource]
  rfl

variable {k : Walk} {done : List Offer}

/-- As long as no wire changes hands, every wire that was offered a clock is settled. -/
structure Covers (d : Design) (k : Walk) (done : List Offer) : Prop where
  sound : k.registry.Sound d
  tracks : Tracks d k done
  settled : Calm k.log → FirstSettled d k.registry done

theorem Covers.offer {k₀ k₁ : Walk} {o : Offer} (hsound : k₀.registry.Sound d)
    (hsource : k₀.registry.carrier? w = some source) (hl : Later rules d w source k₀ k₁)
    (hl' : Later rules d w source k₁ k) (h : Covers d k done)
    (ho : o ∈ Offer.fromWire rules d w source) :
    Covers d (visitTarget d (o.departure k₁.registry) k o.target) (done ++ [o]) := by
  have ha := offer_answer h.sound ho k₁.registry
  refine ⟨ha.sound h.sound, ha.tracks h.tracks, fun hcalm => ?_⟩
  obtain ⟨hbefore, hgrown⟩ := ha.grows h.sound hcalm
  have hcell := (hl'.grows (hl.sound hsound) hbefore).2.keeps
  have hvisit := ((hl.trans hl').grows hsound hbefore).2.keeps
  have hafter := hgrown.keeps
  have hmono := (h.settled hbefore).mono h.sound (ha.sound h.sound) hafter
  refine ha.firstSettled h.tracks hmono fun hassigned hnew => ?_
  generalize visitTarget d (o.departure k₁.registry) k o.target = k' at ha hafter hassigned ⊢
  cases ha with
  | assigned hold => exact absurd hassigned hnew
  | foreign => exact absurd hassigned hnew
  | settled c _ hc hsettles =>
    exact Registry.settled_mono (hl.sound hsound) h.sound h.sound hcell.subset List.prefix_rfl hc
      hsettles
  | derived path t log _ hstale hpath hadd ht hsound' hlog =>
    -- the parent of the clock that was just derived arrives at the cell
    have hmem : (o.departure k₁.registry).clock (k.registry.freeName path o.target) o.target ∈
        t.registry.clocks := ht.mem_new (List.cons_ne_nil _ _)
    have hcarrier := hsound'.coherent.carrier?_eq_some_iff.mpr
      ⟨hmem, List.mem_singleton_self o.target⟩
    have hstill : t.registry.carrier? w = some source :=
      Registry.carrier?_mono hsound hsound' (hvisit.trans hafter).subset hsource
    refine ⟨_, hcarrier, ?_⟩
    simp only [Registry.settles, Departure.clock, Offer.departure, Bool.or_eq_true]
    exact Or.inl (List.contains_iff_mem.mpr (source_mem_arriving ho hstill))

theorem covers_accumulates (rules : RuleSet) (hsound : k.registry.Sound d)
    (hsource : k.registry.carrier? w = some source) :
    Accumulates rules d w source k (Covers d) where
  report _ _ _ _ h := ⟨h.sound, h.tracks, fun hcalm => h.settled (calm_append.mp hcalm).1⟩
  offer _ _ _ _ hl hl' h ho := h.offer hsound hsource hl hl' ho

theorem visitWire_covers (rules : RuleSet) (h : Covers d k done) (w : WireKey) :
    Covers d (visitWire rules d d.fanout k w) (done ++ k.registry.offersAt rules d w) := by
  cases hsource : k.registry.carrier? w with
  | none => rwa [visitWire_of_free hsource, Registry.offersAt, hsource, List.append_nil]
  | some source =>
    rw [Registry.offersAt, hsource]
    exact (covers_accumulates rules h.sound hsource).visitWire done hsource h

theorem run_covers {n : Nat} (h : Covers d k done) (hqueue : k.queue ⊆ k.registry.wires)
    (hcalm : Calm (run rules d d.fanout n k).log) (hend : (run rules d d.fanout n k).queue = []) :
    ∃ news, (run rules d d.fanout n k).registry.clocks = k.registry.clocks ++ news ∧
      FirstSettled d (run rules d d.fanout n k).registry
        (done ++ (k.queue ++ news.flatMap (·.wires)).flatMap
          ((run rules d d.fanout n k).registry.offersAt rules d)) := by
  induction n generalizing k done with
  | zero =>
    have hempty : k.queue = [] := hend
    exact ⟨[], by simp [run], by simpa [hempty, run] using h.settled hcalm⟩
  | succ n ih =>
    unfold run at hcalm hend ⊢
    cases hq : k.queue with
    | nil =>
      simp only [hq] at hcalm hend ⊢
      exact ⟨[], by simp, by simpa using h.settled hcalm⟩
    | cons w queue =>
      simp only [hq] at hcalm hend ⊢
      rw [hq] at hqueue
      obtain ⟨hw, hrest⟩ := List.cons_subset.mp hqueue
      have hpop : Covers d { k with queue } done := ⟨h.sound, h.tracks, h.settled⟩
      have hvisit := visitWire_covers rules hpop w
      obtain ⟨hcalm', hkeeps⟩ := run_keeps n hvisit.sound hcalm
      -- the clocks of this visit are followed by those of the rest of the walk
      obtain ⟨news, hclocks, hafter⟩ := (visitWire_grows hpop.sound w hcalm').2
      have hwires : (visitWire rules d d.fanout { k with queue } w).registry.wires =
          k.registry.wires ++ news.flatMap (·.wires) := by
        simp only [Registry.wires, hclocks, List.flatMap_append]
      have hqueue' : (visitWire rules d d.fanout { k with queue } w).queue ⊆
          (visitWire rules d d.fanout { k with queue } w).registry.wires := by
        rw [hafter, hwires]
        exact List.append_subset.mpr ⟨List.Subset.trans hrest (List.subset_append_left _ _),
          List.subset_append_right _ _⟩
      obtain ⟨news', hclocks', hsettled⟩ := ih hvisit hqueue' hcalm hend
      refine ⟨news ++ news', by rw [hclocks', hclocks, List.append_assoc], ?_⟩
      have hext :
          k.registry.clocks <+: (visitWire rules d d.fanout { k with queue } w).registry.clocks :=
        ⟨news, hclocks.symm⟩
      have hoffers := Registry.offersAt_mono rules h.sound (run_sound n hvisit.sound)
        (hext.trans hkeeps) hw
      simpa only [hafter, hoffers, List.cons_append, List.flatMap_cons, List.flatMap_append,
        List.append_assoc] using hsettled

end Walk

theorem Pass.atRest_of_calm (p : Pass) {d : Design} {r : Registry} (h : r.Sound d)
    (hcalm : Calm (p.walk d r).log) : p.AtRest d (p.walk d r).registry := by
  have hstart : Walk.Covers d (.start r) [] :=
    ⟨h, fun _ _ => Iff.rfl, fun _ => firstSettled_nil⟩
  obtain ⟨news, hclocks, hsettled⟩ :=
    Walk.run_covers hstart (List.Subset.refl _) hcalm (p.walk_exhausts h)
  have hwires : (p.walk d r).registry.wires = r.wires ++ news.flatMap (·.wires) := by
    simp only [Registry.wires]
    rw [show (p.walk d r).registry.clocks = r.clocks ++ news from hclocks, List.flatMap_append]
  unfold Pass.AtRest Pass.offers
  rw [hwires]
  exact hsettled

namespace Walk
variable {d : Design} {k k' : Walk}

theorem Answer.inhabited {dep : Departure} {target : WireKey} (ha : Answer d dep k target k')
    (h : k.registry.clocks ≠ []) : k'.registry.clocks ≠ [] := by
  cases ha with
  | assigned => exact h
  | settled => exact h
  | foreign => exact h
  | derived path t log hnew hstale hpath hadd ht hsound hlog =>
    exact List.ne_nil_of_mem (ht.mem_new (List.cons_ne_nil target []))

theorem visitWire_inhabited {rules : RuleSet} (hsound : k.registry.Sound d)
    (h : k.registry.clocks ≠ []) (w : WireKey) :
    (visitWire rules d d.fanout k w).registry.clocks ≠ [] :=
  visitWire_induction (P := fun k => k.registry.clocks ≠ []) hsound (fun _ _ _ hk => hk)
    (fun _ _ _ _ _ _ _ _ ha hk => ha.inhabited hk) h

end Walk

namespace Engine
variable {d : Design} {r : Registry}

theorem run_inhabited {e : Engine} {r' : Registry} {report : PropagationReport}
    {log : List Diagnostic} (hsound : r.Sound d) (hclocks : r.isEmpty = false)
    (hrun : e.run d r = .ok (report, r', log)) : r'.isEmpty = false := by
  rw [Registry.isEmpty, List.isEmpty_eq_false_iff] at hclocks ⊢
  exact (run_induction (Q := fun r => r.Sound d ∧ r.clocks ≠ [])
    (fun _ _ _ w hk => ⟨Walk.visitWire_sound hk.1 w, Walk.visitWire_inhabited hk.1 hk.2 w⟩)
    ⟨hsound, hclocks⟩ hrun).2

def dividerPass : Pass := ⟨"dividers", RuleSet.dividers⟩

def bufferPass : Pass := ⟨"buffers", RuleSet.buffers⟩

def postPass : Pass := ⟨"post-buffers", RuleSet.buffers⟩

def divided (d : Design) (r : Registry) : Registry :=
  (dividerPass.walk d (bufferPass.walk d r).registry).registry

theorem divided_sound (h : r.Sound d) : (divided d r).Sound d :=
  dividerPass.walk_sound (bufferPass.walk_sound h)

theorem calm_builtin (hcalm : Calm (builtin.progress d r).log) :
    Calm (dividerPass.walk d (bufferPass.walk d r).registry).log ∧
      Calm (postPass.walk d (divided d r)).log := by
  have hlog : (builtin.progress d r).log =
      (([] ++ Notice.started bufferPass.name :: (bufferPass.walk d r).log) ++
        Notice.started dividerPass.name ::
          (dividerPass.walk d (bufferPass.walk d r).registry).log) ++
        Notice.started postPass.name :: (postPass.walk d (divided d r)).log := rfl
  rw [hlog, calm_append, calm_append] at hcalm
  exact ⟨fun n hn => hcalm.1.2 n (List.mem_cons_of_mem _ hn),
    fun n hn => hcalm.2 n (List.mem_cons_of_mem _ hn)⟩

theorem builtin_atRest_iff (h : r.Sound d) (hcalm : Calm (builtin.progress d r).log) :
    (∀ p ∈ builtin, p.AtRest d (builtin.progress d r).registry) ↔
      dividerPass.AtRest d (builtin.progress d r).registry := by
  have hpost : postPass.AtRest d (builtin.progress d r).registry :=
    postPass.atRest_of_calm (divided_sound h) (calm_builtin hcalm).2
  -- the first pass has the rules of the last one
  have hbuffer : bufferPass.AtRest d (builtin.progress d r).registry := hpost
  constructor
  · intro hall
    exact hall dividerPass (by simp [builtin, dividerPass])
  · intro hdivider p hp
    obtain rfl | rfl | rfl : p = bufferPass ∨ p = dividerPass ∨ p = postPass := by
      simpa [builtin, bufferPass, dividerPass, postPass] using hp
    · exact hbuffer
    · exact hdivider
    · exact hpost

theorem dividerPass_atRest (h : r.Sound d) (hcalm : Calm (builtin.progress d r).log)
    (hnew : ∀ w ∈ (builtin.progress d r).registry.wires, w ∉ (divided d r).wires →
      (builtin.progress d r).registry.offersAt RuleSet.dividers d w = []) :
    dividerPass.AtRest d (builtin.progress d r).registry := by
  obtain ⟨hdivider, hpost⟩ := calm_builtin hcalm
  have hrest : dividerPass.AtRest d (divided d r) :=
    dividerPass.atRest_of_calm (bufferPass.walk_sound h) hdivider
  have hkeeps : (divided d r).clocks <+: (postPass.walk d (divided d r)).registry.clocks :=
    (Walk.run_keeps (k := .start (divided d r)) _ (divided_sound h) hpost).2
  exact hrest.mono (divided_sound h) (progress_sound builtin h) hkeeps hnew

theorem builtin_second_run (h : r.Sound d) (htop : d.topModule?.isSome)
    (hclocks : r.isEmpty = false) :
    ∃ report first log, builtin.run d r = .ok (report, first, log) ∧
      (builtin.Idle d first ↔ ∀ p ∈ builtin, p.AtRest d first) ∧
      (Calm log → (builtin.Idle d first ↔ dividerPass.AtRest d first)) ∧
      (Calm log → (∀ w ∈ first.wires, w ∉ (divided d r).wires →
        first.offersAt RuleSet.dividers d w = []) → builtin.Idle d first) := by
  obtain ⟨target, hrun⟩ := run_of_ready (e := builtin) htop hclocks
  have hidle := idle_iff (e := builtin) (progress_sound builtin h) htop
    (run_inhabited h hclocks hrun)
  refine ⟨_, _, _, hrun, hidle, fun hcalm => ?_, fun hcalm hnew => ?_⟩
  · exact hidle.trans (builtin_atRest_iff h (calm_append.mp hcalm).1)
  · have hbefore := (calm_append.mp hcalm).1
    exact hidle.mpr ((builtin_atRest_iff h hbefore).mpr (dividerPass_atRest h hbefore hnew))

end Engine

/-- One module whose cells stand in a row: each reads the wire that the one before it drives. -/
def Design.chain (kinds : List String) : Design :=
  .single ((List.range (kinds.length + 1)).map fun i => ⟨"n" ++ toString i, 1, none⟩)
    (kinds.zipIdx.map fun (kind, i) => {
      name := "u" ++ toString i
      kind
      connections := [⟨"I", .input, i⟩, ⟨"O", .output, i + 1⟩] })

def Registry.atHead (kinds : List String) : Registry :=
  history (.chain kinds) [.declare (.explicit "clk" [⟨0, 0⟩] 10 none)]

theorem Registry.atHead_sound (kinds : List String) : (atHead kinds).Sound (.chain kinds) :=
  sound_history _ _

namespace Engine

instance : DecidablePred Calm := fun log =>
  inferInstanceAs (Decidable (∀ n ∈ log, n.code ≠ Notice.wireMoved))

theorem builtin_second_run_buffered :
    (Design.chain ["INV", "BUFG"]).topModule?.isSome ∧
      (Registry.atHead ["INV", "BUFG"]).isEmpty = false ∧
      ∃ report first log, builtin.run (.chain ["INV", "BUFG"]) (.atHead ["INV", "BUFG"]) =
        .ok (report, first, log) ∧ builtin.Idle (.chain ["INV", "BUFG"]) first := by
  have htop : (Design.chain ["INV", "BUFG"]).topModule?.isSome := by decide
  have hclocks : (Registry.atHead ["INV", "BUFG"]).isEmpty = false := by decide +kernel
  have hfirst : ∀ out ∈ (builtin.run (.chain ["INV", "BUFG"]) (.atHead ["INV", "BUFG"])).toOption,
      Calm out.2.2 ∧ ∀ w ∈ out.2.1.wires,
        w ∉ (divided (.chain ["INV", "BUFG"]) (.atHead ["INV", "BUFG"])).wires →
          out.2.1.offersAt RuleSet.dividers (.chain ["INV", "BUFG"]) w = [] := by
    decide +kernel
  obtain ⟨report, first, log, hrun, -, -, hidle⟩ :=
    builtin_second_run (Registry.atHead_sound ["INV", "BUFG"]) htop hclocks
  obtain ⟨hcalm, hnew⟩ := hfirst _ (by rw [hrun]; rfl)
  exact ⟨htop, hclocks, report, first, log, hrun, hidle hcalm hnew⟩

/-- A divider behind a buffer that only the last pass reaches derives its clock in the second
run. -/
theorem builtin_second_run_stirs :
    (Design.chain ["INV", "BUFG", "INV"]).topModule?.isSome ∧
      (Registry.atHead ["INV", "BUFG", "INV"]).isEmpty = false ∧
      (∀ c ∈ (Registry.atHead ["INV", "BUFG", "INV"]).clocks, c.origin = .explicit) ∧
      ∃ report first log, builtin.run (.chain ["INV", "BUFG", "INV"])
        (.atHead ["INV", "BUFG", "INV"]) = .ok (report, first, log) ∧
          ¬ builtin.Idle (.chain ["INV", "BUFG", "INV"]) first := by
  have htop : (Design.chain ["INV", "BUFG", "INV"]).topModule?.isSome := by decide
  have hclocks : (Registry.atHead ["INV", "BUFG", "INV"]).isEmpty = false := by decide +kernel
  have hsecond : ∀ out ∈ (builtin.run (.chain ["INV", "BUFG", "INV"])
      (.atHead ["INV", "BUFG", "INV"])).toOption, out.2.1.isEmpty = false ∧
        (builtin.progress (.chain ["INV", "BUFG", "INV"]) out.2.1).passes.map (·.derived) =
          [0, 1, 0] := by
    decide +kernel
  obtain ⟨target, hrun⟩ := run_of_ready (e := builtin) htop hclocks
  obtain ⟨hfirst, hderived⟩ := hsecond _ (by rw [hrun]; rfl)
  refine ⟨htop, hclocks, by decide +kernel, _, _, _, hrun, fun hidle => ?_⟩
  have hzero : ∀ n ∈ [0, 1, 0], n = 0 := by
    rw [← hderived, List.forall_mem_map]
    exact hidle.derived htop hfirst
  exact absurd hzero (by decide)

end Engine
end ClockTree
