import ClockTree.Proofs.Propagation.Fuel
import ClockTree.Proofs.Propagation.Growth

/-!
# Passes at rest

A pass is at rest in a registry when the first offer that it would make to each wire of the design
finds the wire settled. A pass derives nothing exactly when it is at rest, and then it leaves the
registry as it is.
-/
namespace ClockTree

def Registry.offersAt (r : Registry) (rules : RuleSet) (d : Design) (w : WireKey) : List Offer :=
  match r.carrier? w with
  | none => []
  | some source => Offer.fromWire rules d w source

/-- The first offer to each wire of the design finds it settled. -/
def FirstSettled (d : Design) (r : Registry) (os : List Offer) : Prop :=
  ∀ t ∈ d.wireRefs, ∀ o ∈ os.find? (·.target == t), r.Settled o

namespace Pass

def offers (p : Pass) (d : Design) (r : Registry) : List Offer :=
  r.wires.flatMap (r.offersAt p.rules d)

def AtRest (p : Pass) (d : Design) (r : Registry) : Prop := FirstSettled d r (p.offers d r)

end Pass

section
variable {d : Design} {r : Registry}

theorem firstSettled_nil : FirstSettled d r [] := by
  simp [FirstSettled]

theorem firstSettled_concat {os : List Offer} {o : Offer} :
    FirstSettled d r (os ++ [o]) ↔ FirstSettled d r os ∧
      (o.target ∈ d.wireRefs → o.target ∉ os.map (·.target) → r.Settled o) := by
  have hnone : ∀ t, os.find? (·.target == t) = none ↔ t ∉ os.map (·.target) := by
    intro t
    rw [List.find?_eq_none]
    simp
  constructor
  · intro h
    refine ⟨fun t ht o' ho' => h t ht o' ?_, fun ht hnew => h o.target ht o ?_⟩
    · rw [List.find?_append, Option.mem_def.mp ho']
      rfl
    · rw [List.find?_append, (hnone o.target).mpr hnew]
      simp
  · intro both t ht o' ho'
    obtain ⟨h, hlast⟩ := both
    rw [List.find?_append] at ho'
    cases hfirst : os.find? (·.target == t) with
    | some o'' =>
      rw [hfirst] at ho'
      exact h t ht o' (hfirst.trans ho')
    | none =>
      rw [hfirst] at ho'
      have hfound : [o].find? (·.target == t) = some o' := ho'
      obtain rfl : o' = o := List.mem_singleton.mp (List.mem_of_find?_eq_some hfound)
      obtain rfl : o'.target = t := by simpa using List.find?_some hfound
      exact hlast ht ((hnone o'.target).mp hfirst)

theorem FirstSettled.of_append {os os' : List Offer} (h : FirstSettled d r (os ++ os')) :
    FirstSettled d r os := by
  intro t ht o ho
  refine h t ht o ?_
  rw [List.find?_append, Option.mem_def.mp ho]
  rfl

end

namespace Walk
variable {d : Design} {r : Registry} {k : Walk} {done : List Offer}

def Tracks (d : Design) (k : Walk) (done : List Offer) : Prop :=
  ∀ t ∈ d.wireRefs, t ∈ k.assigned ↔ t ∈ done.map (·.target)

theorem Answer.tracks {o : Offer} {dep : Departure} {k' : Walk} (h : Tracks d k done)
    (ha : Answer d dep k o.target k') : Tracks d k' (done ++ [o]) := by
  intro t ht
  have hmem : t ∈ (done ++ [o]).map (·.target) ↔ t ∈ done.map (·.target) ∨ t = o.target := by
    simp
  rw [hmem]
  cases ha with
  | assigned hold =>
    rw [h t ht]
    refine ⟨Or.inl, fun hor => hor.elim id ?_⟩
    intro same
    subst same
    exact (h _ ht).mp hold
  | settled => rw [List.mem_cons, h t ht, or_comm]
  | foreign hpath =>
    have hne : t ≠ o.target := by
      intro same
      subst same
      rw [Design.mem_wireRefs, ← path?_isSome, hpath] at ht
      cases ht
    rw [h t ht, or_iff_left hne]
  | derived => rw [List.mem_cons, h t ht, or_comm]

structure Resting (d : Design) (r : Registry) (k : Walk) (done : List Offer) : Prop where
  registry : k.registry = r
  derived : k.derived = 0
  calm : Calm k.log
  settled : FirstSettled d r done
  tracks : Tracks d k done

def Stirred (d : Design) (r : Registry) (k : Walk) (done : List Offer) : Prop :=
  0 < k.derived ∧ ¬ FirstSettled d r done

theorem Stirred.append {k' : Walk} (h : Stirred d r k done) (hk : k.derived ≤ k'.derived)
    (os : List Offer) : Stirred d r k' (done ++ os) :=
  ⟨Nat.lt_of_lt_of_le h.1 hk, fun hs => h.2 hs.of_append⟩

theorem Answer.derived_le {dep : Departure} {target : WireKey} {k' : Walk}
    (ha : Answer d dep k target k') : k.derived ≤ k'.derived := by
  cases ha <;> simp

theorem Later.derived_le {rules : RuleSet} {w : WireKey} {source : Clock} {k' : Walk}
    (hl : Later rules d w source k k') (h : k.registry.Sound d) :
    k.derived ≤ k'.derived ∧
      (k'.derived = k.derived → k'.registry = k.registry ∧ k'.queue = k.queue) := by
  induction hl with
  | refl => exact ⟨Nat.le_refl _, fun _ => ⟨rfl, rfl⟩⟩
  | report n hcode hl ih => exact ih
  | @offer o r₀ k' ho hl ih =>
    have hanswer := offer_answer (hl.sound h) ho r₀
    have hle := hanswer.derived_le
    refine ⟨Nat.le_trans ih.1 hle, fun heq => ?_⟩
    have hsame := ih.2 (by omega)
    generalize visitTarget d (o.departure r₀) k' o.target = k'' at hanswer heq hle ⊢
    cases hanswer with
    | assigned => exact hsame
    | settled => exact hsame
    | foreign => exact hsame
    | derived =>
      simp only at heq hle
      omega

theorem visitWire_derived_le {rules : RuleSet} (h : k.registry.Sound d) (w : WireKey) :
    k.derived ≤ (visitWire rules d d.fanout k w).derived ∧
      ((visitWire rules d d.fanout k w).derived = k.derived →
        (visitWire rules d d.fanout k w).registry = k.registry ∧
          (visitWire rules d d.fanout k w).queue = k.queue) := by
  cases hsource : k.registry.carrier? w with
  | none =>
    rw [visitWire_of_free hsource]
    exact ⟨Nat.le_refl _, fun _ => ⟨rfl, rfl⟩⟩
  | some source => exact (visitWire_later hsource).derived_le h

theorem run_derived_le {rules : RuleSet} (n : Nat) (h : k.registry.Sound d) :
    k.derived ≤ (run rules d d.fanout n k).derived := by
  refine (run_induction (P := fun k' => k'.registry.Sound d ∧ k.derived ≤ k'.derived)
    (fun k' w queue hk' _ => ?_) n ⟨h, Nat.le_refl _⟩).2
  have hpop : ({ k' with queue } : Walk).registry.Sound d := hk'.1
  exact ⟨visitWire_sound hpop w, Nat.le_trans hk'.2 (visitWire_derived_le hpop w).1⟩

theorem Answer.firstSettled {o : Offer} {dep : Departure} {k' : Walk} {r' : Registry}
    (htracks : Tracks d k done) (hsettled : FirstSettled d r' done)
    (ha : Answer d dep k o.target k')
    (hlast : o.target ∈ k'.assigned → o.target ∉ k.assigned → r'.Settled o) :
    FirstSettled d r' (done ++ [o]) := by
  refine firstSettled_concat.mpr ⟨hsettled, fun ht hnew => hlast ?_ fun hold => hnew ?_⟩
  · exact (ha.tracks htracks o.target ht).mpr (by simp)
  · exact (htracks o.target ht).mp hold

theorem Resting.offer {o : Offer} {k' : Walk} (h : Resting d r k done)
    (ha : Answer d (o.departure r) k o.target k') :
    Resting d r k' (done ++ [o]) ∨ Stirred d r k' (done ++ [o]) := by
  obtain ⟨rfl, hderived, hcalm, hsettled, htracks⟩ := h
  have hafter := ha.tracks htracks
  have hfirst := ha.firstSettled htracks hsettled
  cases ha with
  | assigned hold =>
    exact Or.inl ⟨rfl, hderived, hcalm, hfirst fun _ hnew => absurd hold hnew, hafter⟩
  | settled c hnew hc hsettles =>
    exact Or.inl ⟨rfl, hderived, hcalm, hfirst fun _ _ => ⟨c, hc, hsettles⟩, hafter⟩
  | foreign hpath =>
    exact Or.inl ⟨rfl, hderived, hcalm, hfirst fun hold hnew => absurd hold hnew, hafter⟩
  | derived path t log hnew hstale hpath hadd ht hsound' hlog =>
    have htarget := Design.mem_wireRefs.mpr (wire?_of_path hpath)
    refine Or.inr ⟨Nat.succ_pos _, fun hbroken => ?_⟩
    obtain ⟨c, hc, hsettles⟩ := (firstSettled_concat.mp hbroken).2 htarget
      fun hold => hnew ((htracks _ htarget).mpr hold)
    rw [hstale c hc] at hsettles
    cases hsettles

/-- Where a walk stands that started in `r` and would have made the offers `done` there. -/
def Stands (d : Design) (r : Registry) (k : Walk) (done : List Offer) : Prop :=
  k.registry.Sound d ∧ (Resting d r k done ∨ Stirred d r k done)

theorem stands_accumulates (rules : RuleSet) {w : WireKey} {source : Clock}
    (hsound : k.registry.Sound d) : Accumulates rules d w source k (Stands d r) where
  report k done n hcode h := by
    refine ⟨h.1, h.2.imp (fun hr => ?_) fun hs => hs⟩
    exact ⟨hr.registry, hr.derived, calm_append.mpr ⟨hr.calm, by simpa [Calm] using hcode⟩,
      hr.settled, hr.tracks⟩
  offer k₁ k' done o hl hl' h ho := by
    have hanswer := offer_answer h.1 ho k₁.registry
    refine ⟨hanswer.sound h.1, h.2.elim (fun hr => ?_) fun hs => Or.inr ?_⟩
    · -- nothing was derived since the clocks at the cell were looked up
      obtain ⟨hle, hsame⟩ := hl'.derived_le (hl.sound hsound)
      have hzero := hr.derived
      have hstart : k₁.registry = r := (hsame (by omega)).1.symm.trans hr.registry
      rw [hstart] at hanswer ⊢
      exact hr.offer hanswer
    · exact hs.append hanswer.derived_le [o]

theorem visitWire_stands {rules : RuleSet} (h : Stands d r k done) (w : WireKey) :
    Stands d r (visitWire rules d d.fanout k w) (done ++ r.offersAt rules d w) := by
  obtain ⟨hsound, hresting | hstirred⟩ := h
  · rw [← hresting.registry, Registry.offersAt]
    cases hsource : k.registry.carrier? w with
    | none =>
      rw [visitWire_of_free hsource, List.append_nil, hresting.registry]
      exact ⟨hsound, Or.inl hresting⟩
    | some source =>
      rw [hresting.registry]
      exact (stands_accumulates rules hsound).visitWire done hsource ⟨hsound, Or.inl hresting⟩
  · exact ⟨visitWire_sound hsound w,
      Or.inr (hstirred.append (visitWire_derived_le hsound w).1 _)⟩

theorem run_stands {rules : RuleSet} {n : Nat} {ws : List WireKey} (h : Stands d r k done)
    (hqueue : Resting d r k done → k.queue = ws) (hn : ws.length ≤ n) :
    Stands d r (run rules d d.fanout n k) (done ++ ws.flatMap (r.offersAt rules d)) := by
  induction n generalizing k done ws with
  | zero =>
    obtain rfl := List.eq_nil_of_length_eq_zero (Nat.le_zero.mp hn)
    rwa [List.flatMap_nil, List.append_nil]
  | succ n ih =>
    obtain ⟨hsound, hresting | hstirred⟩ := h
    · -- the queue is known as long as nothing was derived
      have hq := hqueue hresting
      unfold run
      cases ws with
      | nil =>
        rw [hq, List.flatMap_nil, List.append_nil]
        exact ⟨hsound, Or.inl hresting⟩
      | cons w ws =>
        rw [hq]
        have hpop : Resting d r { k with queue := ws } done :=
          ⟨hresting.registry, hresting.derived, hresting.calm, hresting.settled, hresting.tracks⟩
        have hstands : Stands d r { k with queue := ws } done := ⟨hsound, Or.inl hpop⟩
        rw [List.flatMap_cons, ← List.append_assoc]
        refine ih (visitWire_stands hstands w) (fun hafter => ?_) (Nat.le_of_succ_le_succ hn)
        exact ((visitWire_derived_le (k := { k with queue := ws }) hsound w).2
          (hafter.derived.trans hpop.derived.symm)).2
    · exact ⟨run_sound (n + 1) hsound,
        Or.inr (hstirred.append (run_derived_le (n + 1) hsound) _)⟩

end Walk

theorem Pass.walk_cases (p : Pass) {d : Design} {r : Registry} (h : r.Sound d) :
    (p.AtRest d r ∧ (p.walk d r).registry = r ∧ (p.walk d r).derived = 0 ∧
      Calm (p.walk d r).log) ∨
    (¬ p.AtRest d r ∧ 0 < (p.walk d r).derived) := by
  have hstart : Walk.Resting d r (.start r) [] :=
    ⟨rfl, rfl, List.forall_mem_nil _, firstSettled_nil, fun _ _ => Iff.rfl⟩
  have hstands : Walk.Stands d r (p.walk d r) (p.offers d r) :=
    Walk.run_stands ⟨h, Or.inl hstart⟩ (fun _ => rfl) (Nat.le_add_right _ _)
  obtain ⟨-, hresting | hstirred⟩ := hstands
  · exact Or.inl ⟨hresting.settled, hresting.registry, hresting.derived, hresting.calm⟩
  · exact Or.inr ⟨hstirred.2, hstirred.1⟩

namespace Engine
variable {d : Design} {r : Registry}

/-- A run that derives nothing in any pass, takes no wire from a clock and changes nothing. -/
def Idle (e : Engine) (d : Design) (r : Registry) : Prop :=
  ∃ report log, e.run d r = .ok (report, r, log) ∧ (∀ p ∈ report.passes, p.derived = 0) ∧ Calm log

theorem step_of_atRest {p : Pass} (h : r.Sound d) (hrest : p.AtRest d r) {k : Progress}
    (hk : k.registry = r) :
    (k.step d p).registry = r ∧ (k.step d p).passes = k.passes ++ [⟨p.name, 0⟩] ∧
      (Calm k.log → Calm (k.step d p).log) := by
  obtain ⟨-, hregistry, hderived, hcalm⟩ | ⟨hnot, -⟩ := p.walk_cases h
  · subst hk
    refine ⟨hregistry, by simp only [Progress.step, hderived], fun hlog => ?_⟩
    have hstarted : (Notice.started p.name).code ≠ Notice.wireMoved := by
      simp [Notice.started, Notice.passStarted, Notice.wireMoved]
    exact calm_append.mpr ⟨hlog, List.forall_mem_cons.mpr ⟨hstarted, hcalm⟩⟩
  · exact absurd hrest hnot

theorem foldl_step_of_atRest {e : Engine} (h : r.Sound d) (hrest : ∀ p ∈ e, p.AtRest d r)
    {k : Progress} (hregistry : k.registry = r) (hpasses : ∀ p ∈ k.passes, p.derived = 0)
    (hcalm : Calm k.log) :
    (e.foldl (Progress.step d) k).registry = r ∧
      (∀ p ∈ (e.foldl (Progress.step d) k).passes, p.derived = 0) ∧
      Calm (e.foldl (Progress.step d) k).log := by
  induction e generalizing k with
  | nil => exact ⟨hregistry, hpasses, hcalm⟩
  | cons p e ih =>
    obtain ⟨hregistry', hpasses', hcalm'⟩ :=
      step_of_atRest h (hrest p List.mem_cons_self) hregistry
    refine ih (fun q hq => hrest q (List.mem_cons_of_mem p hq)) hregistry' ?_ (hcalm' hcalm)
    rw [hpasses', List.forall_mem_append]
    exact ⟨hpasses, by simp⟩

theorem passes_subset_foldl_step (e : Engine) (k : Progress) :
    k.passes ⊆ (e.foldl (Progress.step d) k).passes := by
  induction e generalizing k with
  | nil => exact List.Subset.refl _
  | cons p e ih => exact List.Subset.trans (List.subset_append_left k.passes _) (ih (k.step d p))

theorem atRest_of_foldl_step {e : Engine} (h : r.Sound d) {k : Progress}
    (hregistry : k.registry = r)
    (hpasses : ∀ p ∈ (e.foldl (Progress.step d) k).passes, p.derived = 0) :
    ∀ p ∈ e, p.AtRest d r := by
  induction e generalizing k with
  | nil => exact List.forall_mem_nil _
  | cons p e ih =>
    have hrest : p.AtRest d r := by
      obtain ⟨hrest, -⟩ | ⟨-, hderived⟩ := p.walk_cases h
      · exact hrest
      · have hmem : (⟨p.name, (p.walk d r).derived⟩ : PassReport) ∈ (k.step d p).passes := by
          simp [Progress.step, hregistry]
        have hzero := hpasses _ (passes_subset_foldl_step e (k.step d p) hmem)
        simp only at hzero
        omega
    exact List.forall_mem_cons.mpr
      ⟨hrest, ih (step_of_atRest h hrest hregistry).1 hpasses⟩

theorem run_of_ready {e : Engine} (htop : d.topModule?.isSome) (hclocks : r.isEmpty = false) :
    ∃ target : Option DelayTarget, e.run d r =
      .ok (⟨(e.progress d r).passes, target⟩, (e.progress d r).registry,
        (e.progress d r).log ++ target.toList.map Notice.targeted) := by
  have htop' : d.topModule?.isNone = false := by
    rwa [Option.isNone_eq_false_iff]
  refine ⟨(e.progress d r).registry.fastest?.map fun c => ⟨c.name, c.wave.period⟩, ?_⟩
  simp only [run, htop', hclocks, Bool.false_eq_true, if_false]

theorem calm_targeted (target : Option DelayTarget) : Calm (target.toList.map Notice.targeted) := by
  intro n hn
  obtain ⟨t, -, rfl⟩ := List.mem_map.mp hn
  simp [Notice.targeted, Notice.delayTarget, Notice.wireMoved]

theorem Idle.derived {e : Engine} (hidle : e.Idle d r) (htop : d.topModule?.isSome)
    (hclocks : r.isEmpty = false) : ∀ p ∈ (e.progress d r).passes, p.derived = 0 := by
  obtain ⟨report, log, hrun, hpasses, -⟩ := hidle
  obtain ⟨target, hrun'⟩ := run_of_ready (e := e) htop hclocks
  rw [hrun', Except.ok.injEq, Prod.mk.injEq] at hrun
  obtain ⟨rfl, -⟩ := hrun
  exact hpasses

theorem idle_iff {e : Engine} (h : r.Sound d) (htop : d.topModule?.isSome)
    (hclocks : r.isEmpty = false) : e.Idle d r ↔ ∀ p ∈ e, p.AtRest d r := by
  constructor
  · intro hidle
    exact atRest_of_foldl_step h rfl (hidle.derived htop hclocks)
  · intro hrest
    obtain ⟨target, hrun⟩ := run_of_ready (e := e) htop hclocks
    obtain ⟨hregistry, hpasses, hcalm⟩ := foldl_step_of_atRest h hrest (k := ⟨r, [], []⟩) rfl
      (List.forall_mem_nil _) (List.forall_mem_nil _)
    have hkept : (e.progress d r).registry = r := hregistry
    rw [hkept] at hrun
    exact ⟨_, _, hrun, hpasses, calm_append.mpr ⟨hcalm, calm_targeted target⟩⟩

end Engine
end ClockTree
