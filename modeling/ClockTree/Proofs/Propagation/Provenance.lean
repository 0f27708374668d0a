import ClockTree.Proofs.Propagation.Frame
import ClockTree.Proofs.Propagation.Growth

/-!
# Where generated clocks come from

A walk makes a generated clock from the clock that it finds on a wire when it visits the wire. The
visits of a run are recorded here beside the run, with the registry that each of them finds. A
generated clock is registered since the visit that made it, and its parent stays as it was for as
long as no other clock gets its name or one of its wires. A run during which no wire changes hands
keeps every clock that one of its visits found.
-/
namespace ClockTree

/-- The cell reads the wire `w` and makes the clock `g` of the clock `p`. -/
def Cell.Makes (cell : Cell) (rules : RuleSet) (w : WireKey) (p g : Clock) : Prop :=
  ∃ rule ∈ rules.get? cell.kind,
    (∃ c ∈ cell.connections, c.direction.reads ∧ c.wire = w.wire ∧ rule.entersOn c.port) ∧
    ∃ out ∈ rule.outputs, (∃ i ∈ cell.wiresOn out.port, ⟨w.module, i⟩ ∈ g.wires) ∧
      out.transform.apply p.wave cell.params = .ok g.wave

def Clock.StemsFrom (g : Clock) (rules : RuleSet) (d : Design) (w : WireKey) (p : Clock) : Prop :=
  g.origin = .generated p.name ∧
    ∃ m ∈ d.module? w.module, ∃ cell ∈ m.cells, cell.Makes rules w p g

/-- Every generated clock is what a cell makes of its parent as it is registered now. -/
def Registry.UpToDate (e : Engine) (d : Design) (r : Registry) : Prop :=
  ∀ g ∈ r.clocks, g.isGenerated → ∃ p ∈ r.clocks, ∃ w ∈ p.wires, ∃ pass ∈ e,
    g.StemsFrom pass.rules d w p

structure Visit where
  pass : Pass
  registry : Registry
  wire : WireKey

inductive Stage where
  | command (r : Registry)
  | visit (v : Visit)

def Stage.registry : Stage → Registry
  | .command r => r
  | .visit v => v.registry

/-- No clock other than `p` has its name or stands on one of its wires. -/
def Registry.Undisputed (r : Registry) (p : Clock) : Prop :=
  ∀ c ∈ r.clocks, c.name = p.name ∨ ¬ List.Disjoint c.wires p.wires → c = p

def Visit.Yields (d : Design) (v : Visit) (g : Clock) : Prop :=
  ∃ p ∈ v.registry.clocks, v.wire ∈ p.wires ∧ g.StemsFrom v.pass.rules d v.wire p

/-- The visit made the clock `g` of the clock `p`, and `since` are the registries from then on. -/
structure Visit.Made (d : Design) (v : Visit) (since : List Registry) (p g : Clock) : Prop where
  source : p ∈ v.registry.clocks
  onWire : v.wire ∈ p.wires
  stems : g.StemsFrom v.pass.rules d v.wire p
  fresh : g ∉ v.registry.clocks
  kept : ∀ r ∈ since, g ∈ r.clocks
  parent : ∀ rs, rs <+: since → (∀ r ∈ rs, r.Undisputed p) → ∀ r ∈ rs, p ∈ r.clocks

def Clock.DerivedIn (g : Clock) (d : Design) (past : List Stage) (r : Registry) : Prop :=
  ∃ before v after p, past = before ++ .visit v :: after ∧
    v.Made d (after.map (·.registry) ++ [r]) p g

def Walk.visits (p : Pass) (d : Design) : Nat → Walk → List Visit
  | 0, _ => []
  | fuel + 1, k => match k.queue with
    | [] => []
    | w :: queue =>
      ⟨p, k.registry, w⟩ :: visits p d fuel (visitWire p.rules d d.fanout { k with queue } w)

def Pass.visits (p : Pass) (d : Design) (r : Registry) : List Visit :=
  Walk.visits p d (r.wires.length + d.wireRefs.length) (.start r)

def Engine.visits (d : Design) : Engine → Registry → List Visit
  | [], _ => []
  | p :: e, r => p.visits d r ++ visits d e (p.walk d r).registry

structure Registry.Generates (P : Clock → Prop) (r : Registry) : Prop where
  single : ∀ g ∈ r.clocks, g.isGenerated → ∃ w, g.wires = [w]
  satisfies : ∀ g ∈ r.clocks, g.isGenerated → P g

def Registry.Traced (d : Design) (past : List Stage) (r : Registry) : Prop :=
  r.Generates fun g => g.DerivedIn d past r

section
variable {d : Design} {past : List Stage}

theorem Clock.after_origin (name : String) (ws : List WireKey) (b : Clock) :
    (b.after name ws).origin = b.origin := by
  unfold after
  split <;> rfl

theorem Clock.after_of_single {name : String} {ws : List WireKey} {b : Clock} {w : WireKey}
    (hb : b.wires = [w]) (hne : (b.after name ws).wires ≠ []) : b.after name ws = b := by
  unfold after at hne ⊢
  split
  · rfl
  · rename_i hname
    simp only [hname, if_false, hb] at hne
    by_cases hw : w ∈ ws
    · simp [hw] at hne
    · rw [filter_notMem_of_disjoint (hb ▸ List.singleton_disjoint.mpr hw)]

namespace Visit.Made
variable {v : Visit} {since : List Registry} {p g : Clock}

theorem start {r : Registry} (hp : p ∈ v.registry.clocks) (hw : v.wire ∈ p.wires)
    (hstems : g.StemsFrom v.pass.rules d v.wire p) (hnew : g ∉ v.registry.clocks)
    (hg : g ∈ r.clocks) (hpersists : r.Undisputed p → p ∈ r.clocks) : v.Made d [r] p g where
  source := hp
  onWire := hw
  stems := hstems
  fresh := hnew
  kept := List.forall_mem_singleton.mpr hg
  parent rs hrs hundisputed r' hr' := by
    obtain rfl : r' = r := List.mem_singleton.mp (hrs.subset hr')
    exact hpersists (hundisputed r' hr')

theorem extend {r r' : Registry} (h : v.Made d (since ++ [r]) p g) (hg : g ∈ r'.clocks)
    (hpersists : p ∈ r.clocks → r'.Undisputed p → p ∈ r'.clocks) :
    v.Made d (since ++ [r] ++ [r']) p g where
  source := h.source
  onWire := h.onWire
  stems := h.stems
  fresh := h.fresh
  kept := List.forall_mem_append.mpr ⟨h.kept, List.forall_mem_singleton.mpr hg⟩
  parent rs hrs hundisputed := by
    obtain rfl | hrs := List.prefix_concat_iff.mp hrs
    · obtain ⟨hbefore, hlast⟩ := List.forall_mem_append.mp hundisputed
      have hparent := h.parent _ List.prefix_rfl hbefore
      refine List.forall_mem_append.mpr ⟨hparent, List.forall_mem_singleton.mpr ?_⟩
      exact hpersists (hparent r (by simp)) (hlast r' (by simp))
    · exact h.parent rs hrs hundisputed

end Visit.Made

namespace Registry
variable {r : Registry}

theorem traced_empty : Traced d past {} :=
  ⟨List.forall_mem_nil _, List.forall_mem_nil _⟩

theorem Transfer.Completes.persists {c : Clock} {t : Transfer} (ht : t.Completes r c)
    (hc : c.wires ≠ []) {p : Clock} (hp : p ∈ r.clocks) (hne : p.wires ≠ [])
    (h : t.registry.Undisputed p) : p ∈ t.registry.clocks := by
  have hmem : c ∈ t.registry.clocks := ht.mem_new hc
  by_cases hdispute : c.name = p.name ∨ ¬ List.Disjoint c.wires p.wires
  · exact h c hmem hdispute ▸ hmem
  · simp only [not_or, not_not] at hdispute
    exact ht.mem_of_disjoint hp (Ne.symm hdispute.1) (List.disjoint_symm hdispute.2) hne

theorem Generates.of_completes {P : Clock → Prop} {c : Clock} {t : Transfer}
    (h : r.Generates P) (ht : t.Completes r c)
    (hc : c.isGenerated → (∃ w, c.wires = [w]) ∧ P c) : t.registry.Generates P := by
  have hkept : ∀ g ∈ t.registry.clocks, g.isGenerated → g = c ∨ g ∈ r.clocks := by
    intro g hg hgen
    obtain ⟨rfl | ⟨b, hb, -, rfl⟩, hne⟩ := ht.mem_clocks.mp hg
    · exact Or.inl rfl
    · unfold Clock.isGenerated at hgen
      rw [Clock.after_origin] at hgen
      obtain ⟨w, hw⟩ := h.single b hb hgen
      rw [Clock.after_of_single hw hne]
      exact Or.inr hb
  constructor <;> intro g hg hgen <;> obtain rfl | hold := hkept g hg hgen
  · exact (hc hgen).1
  · exact h.single g hold hgen
  · exact (hc hgen).2
  · exact h.satisfies g hold hgen

namespace Traced

/-- From a stage to the next registry: what is new was made in the stage, and what is undisputed
stays. -/
theorem advance {t : Stage} {r' : Registry} (h : t.registry.Traced d past)
    (hmade : r'.Generates fun g => g ∈ t.registry.clocks ∨ ∃ v, t = .visit v ∧ v.Yields d g)
    (hpersists : ∀ p ∈ t.registry.clocks, r'.Undisputed p → p ∈ r'.clocks) :
    r'.Traced d (past ++ [t]) := by
  refine ⟨hmade.single, fun g hg hgen => ?_⟩
  by_cases hold : g ∈ t.registry.clocks
  · obtain ⟨before, v, after, p, rfl, hv⟩ := h.satisfies g hold hgen
    refine ⟨before, v, after ++ [t], p, by simp, ?_⟩
    rw [List.map_append]
    exact hv.extend hg (hpersists p)
  · obtain hold' | ⟨v, rfl, p, hp, hw, hstems⟩ := hmade.satisfies g hg hgen
    · exact absurd hold' hold
    · exact ⟨past, v, [], p, rfl, .start hp hw hstems hold hg (hpersists p hp)⟩

theorem idle (h : r.Traced d past) : r.Traced d (past ++ [.command r]) :=
  advance (t := .command r) h ⟨h.single, fun _ hg _ => Or.inl hg⟩ fun _ hp _ => hp

theorem declare {spec : ClockDeclaration} (h : r.Traced d past) (hsound : r.Sound d)
    (hspec : spec.origin = .explicit) {clock : Clock} {r' : Registry} {log : List Diagnostic}
    (hadd : r.add d spec = .ok (clock, r', log)) : r'.Traced d (past ++ [.command r]) := by
  obtain ⟨fault, -, hadd'⟩ | ⟨t, hrefuse, ht, -, hadd'⟩ := hsound.add_cases spec <;>
    rw [hadd'] at hadd <;> cases hadd
  have hexplicit : spec.clock.isGenerated = false := by
    simp [Clock.isGenerated, ClockDeclaration.clock, hspec]
  refine advance (t := .command r) h ?_ fun p hp => ?_
  · exact Generates.of_completes ⟨h.single, fun _ hg _ => Or.inl hg⟩ ht (by simp [hexplicit])
  · exact ht.persists (clock_wires_ne hrefuse) hp (hsound.wires_ne p hp)

end Traced
end Registry

namespace Walk
variable {k k' : Walk} {w : WireKey} {source : Clock}

theorem departure_clock_stemsFrom {rules : RuleSet} {o : Offer}
    (ho : o ∈ Offer.fromWire rules d w source) (r : Registry) (name : String) :
    ((o.departure r).clock name o.target).StemsFrom rules d w source := by
  obtain ⟨hsource, ⟨m, hm, hcell⟩, hrule, hinput, out, hout, htarget, -, happly⟩ := mem_fromWire ho
  obtain ⟨i, hi, htarget⟩ := List.mem_map.mp htarget
  refine ⟨by simp only [Departure.clock, Offer.departure, hsource], ?_⟩
  refine ⟨m, hm, o.cell, hcell, o.rule, hrule, hinput, out, hout, ⟨i, hi, ?_⟩, happly⟩
  rw [htarget]
  exact List.mem_singleton_self o.target

theorem Answer.generates {P : Clock → Prop} {dep : Departure} {target : WireKey}
    (h : k.registry.Generates P) (ha : Answer d dep k target k')
    (hP : ∀ name, P (dep.clock name target)) : k'.registry.Generates P := by
  cases ha with
  | assigned => exact h
  | settled => exact h
  | foreign => exact h
  | derived path t log hnew hstale hpath hadd ht hsound hlog =>
    exact h.of_completes ht fun _ => ⟨⟨target, rfl⟩, hP _⟩

theorem visitWire_generates {P : Clock → Prop} (p : Pass) (hsound : k.registry.Sound d)
    (h : k.registry.Generates P) (hP : ∀ g, Visit.Yields d ⟨p, k.registry, w⟩ g → P g) :
    (visitWire p.rules d d.fanout k w).registry.Generates P := by
  refine visitWire_induction (P := fun k' => k'.registry.Generates P) hsound (fun _ _ _ hk => hk)
    (fun source hsource o ho r k' k'' _ ha hk => ?_) h
  obtain ⟨hmem, hw⟩ := hsound.coherent.carrier?_eq_some_iff.mp hsource
  exact ha.generates hk fun name =>
    hP _ ⟨source, hmem, hw, departure_clock_stemsFrom ho r name⟩

/-- A wire that carries a clock carries one after the visit, so a clock of which nobody else has a
wire is still there. -/
theorem visitWire_persists {rules : RuleSet} (hsound : k.registry.Sound d) {p : Clock}
    (hp : p ∈ k.registry.clocks)
    (h : (visitWire rules d d.fanout k w).registry.Undisputed p) :
    p ∈ (visitWire rules d d.fanout k w).registry.clocks := by
  have hframes : Frames d k.registry (visitWire rules d d.fanout k w).registry :=
    visitWire_frames ⟨hsound, rfl, List.Subset.refl _⟩ w
  obtain ⟨u, hu⟩ := List.exists_mem_of_ne_nil p.wires (hsound.wires_ne p hp)
  obtain ⟨c, hc, huc⟩ := List.mem_flatMap.mp (hframes.wires (List.mem_flatMap.mpr ⟨p, hp, hu⟩))
  exact h c hc (Or.inr fun hdisjoint => hdisjoint huc hu) ▸ hc

theorem visitWire_traced (p : Pass) (hsound : k.registry.Sound d)
    (h : k.registry.Traced d past) (w : WireKey) :
    (visitWire p.rules d d.fanout k w).registry.Traced d
      (past ++ [.visit ⟨p, k.registry, w⟩]) := by
  refine Registry.Traced.advance (t := .visit ⟨p, k.registry, w⟩) h ?_
    fun _ hp => visitWire_persists hsound hp
  exact visitWire_generates p hsound ⟨h.single, fun _ hg _ => Or.inl hg⟩
    fun _ hyields => Or.inr ⟨_, rfl, hyields⟩

theorem run_traced (p : Pass) (n : Nat) (hsound : k.registry.Sound d)
    (h : k.registry.Traced d past) :
    (run p.rules d d.fanout n k).registry.Traced d (past ++ (visits p d n k).map .visit) := by
  induction n generalizing k past with
  | zero => simpa [run, visits] using h
  | succ n ih =>
    unfold run visits
    cases hqueue : k.queue with
    | nil => simpa using h
    | cons w queue =>
      have hpop : ({ k with queue } : Walk).registry.Sound d := hsound
      simpa only [List.append_assoc, List.map_cons, List.singleton_append] using
        ih (visitWire_sound hpop w) (visitWire_traced p hpop h w)

theorem visits_kept (p : Pass) (n : Nat) (hsound : k.registry.Sound d)
    (hcalm : Calm (run p.rules d d.fanout n k).log) :
    ∀ v ∈ visits p d n k, v.registry.clocks ⊆ (run p.rules d d.fanout n k).registry.clocks := by
  induction n generalizing k with
  | zero => exact List.forall_mem_nil _
  | succ n ih =>
    have hkeeps := (run_keeps (n + 1) hsound hcalm).2.subset
    unfold run at hcalm hkeeps ⊢
    unfold visits
    cases hqueue : k.queue with
    | nil => exact List.forall_mem_nil _
    | cons w queue =>
      simp only [hqueue] at hcalm hkeeps ⊢
      have hpop : ({ k with queue } : Walk).registry.Sound d := hsound
      exact List.forall_mem_cons.mpr ⟨hkeeps, ih (visitWire_sound hpop w) hcalm⟩

theorem visits_pass (p : Pass) (n : Nat) (k : Walk) : ∀ v ∈ visits p d n k, v.pass = p := by
  induction n generalizing k with
  | zero => exact List.forall_mem_nil _
  | succ n ih =>
    unfold visits
    split
    · exact List.forall_mem_nil _
    · exact List.forall_mem_cons.mpr ⟨rfl, ih _⟩

end Walk

namespace Engine

theorem visits_pass (e : Engine) (r : Registry) : ∀ v ∈ e.visits d r, v.pass ∈ e := by
  induction e generalizing r with
  | nil => exact List.forall_mem_nil _
  | cons p e ih =>
    refine List.forall_mem_append.mpr ⟨fun v hv => ?_, fun v hv => ?_⟩
    · rw [Walk.visits_pass p _ _ v hv]
      exact List.mem_cons_self
    · exact List.mem_cons_of_mem p (ih _ v hv)

theorem foldl_step_traced (e : Engine) {k : Progress} (hsound : k.registry.Sound d)
    (h : k.registry.Traced d past) :
    (e.foldl (Progress.step d) k).registry.Traced d
      (past ++ (e.visits d k.registry).map .visit) := by
  induction e generalizing k past with
  | nil => simpa [visits] using h
  | cons p e ih =>
    have hpass : (k.step d p).registry.Traced d (past ++ (p.visits d k.registry).map .visit) :=
      Walk.run_traced p _ hsound h
    rw [visits, List.map_append, ← List.append_assoc]
    exact ih (p.walk_sound hsound) hpass

theorem foldl_step_keeps (e : Engine) {k : Progress} (hsound : k.registry.Sound d)
    (hcalm : Calm (e.foldl (Progress.step d) k).log) :
    Calm k.log ∧ k.registry.clocks ⊆ (e.foldl (Progress.step d) k).registry.clocks ∧
      ∀ v ∈ e.visits d k.registry,
        v.registry.clocks ⊆ (e.foldl (Progress.step d) k).registry.clocks := by
  induction e generalizing k with
  | nil => exact ⟨hcalm, List.Subset.refl _, List.forall_mem_nil _⟩
  | cons p e ih =>
    obtain ⟨hlog, hkeeps, hvisits⟩ := ih (k := k.step d p) (p.walk_sound hsound) hcalm
    obtain ⟨hbefore, hwalk⟩ := calm_append.mp hlog
    have hpass : Calm (p.walk d k.registry).log := fun n hn => hwalk n (List.mem_cons_of_mem _ hn)
    have hgrown : k.registry.clocks ⊆ (p.walk d k.registry).registry.clocks :=
      (Walk.run_keeps (k := .start k.registry) _ hsound hpass).2.subset
    refine ⟨hbefore, List.Subset.trans hgrown hkeeps,
      List.forall_mem_append.mpr ⟨fun v hv => ?_, hvisits⟩⟩
    have hfound := Walk.visits_kept (k := .start k.registry) p _ hsound hpass v hv
    exact List.Subset.trans hfound hkeeps

theorem run_traced {e : Engine} {r r' : Registry} {report : PropagationReport}
    {log : List Diagnostic} (hsound : r.Sound d) (h : r.Traced d past)
    (hrun : e.run d r = .ok (report, r', log)) :
    r'.Traced d (past ++ (e.visits d r).map .visit) := by
  obtain ⟨rfl, -⟩ := run_ok hrun
  exact foldl_step_traced (k := ⟨r, [], []⟩) e hsound h

theorem run_keeps {e : Engine} {r r' : Registry} {report : PropagationReport}
    {log : List Diagnostic} (hsound : r.Sound d) (hrun : e.run d r = .ok (report, r', log))
    (hcalm : Calm log) :
    r.clocks ⊆ r'.clocks ∧ ∀ v ∈ e.visits d r, v.registry.clocks ⊆ r'.clocks := by
  obtain ⟨rfl, target, rfl⟩ := run_ok hrun
  exact (foldl_step_keeps (k := ⟨r, [], []⟩) e hsound (calm_append.mp hcalm).1).2

end Engine
end
end ClockTree
