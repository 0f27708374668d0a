import ClockTree.Proofs.Propagation.History

/-!
# The declarations of a run

A run changes the registry by declaring generated clocks and in no other way. The declarations are
listed here beside the run. Made one after the other they all succeed, and they lead to the registry
that the run leaves, so the registries in which they are made are the ones that the run passes
through.
-/
namespace ClockTree

/-- What the steps of a loop emit, each in the state in which it starts. -/
def emissions {σ α β : Type} (step : σ → α → σ) (emit : σ → α → List β) : σ → List α → List β
  | _, [] => []
  | k, a :: l => emit k a ++ emissions step emit (step k a) l

theorem foldl_emissions {σ α β : Type} {I : σ → List β → Prop} {step : σ → α → σ}
    {emit : σ → α → List β} {l : List α}
    (hstep : ∀ a ∈ l, ∀ k done, I k done → I (step k a) (done ++ emit k a)) {k : σ}
    {done : List β} (hk : I k done) : I (l.foldl step k) (done ++ emissions step emit k l) := by
  induction l generalizing k done with
  | nil => simpa [emissions] using hk
  | cons a l ih =>
    rw [List.foldl_cons, emissions, ← List.append_assoc]
    exact ih (fun b hb => hstep b (List.mem_cons_of_mem a hb))
      (hstep a List.mem_cons_self k done hk)

theorem emissions_append {σ α β : Type} (step : σ → α → σ) (emit : σ → α → List β) (l l' : List α)
    (k : σ) : emissions step emit k (l ++ l') =
      emissions step emit k l ++ emissions step emit (l.foldl step k) l' := by
  induction l generalizing k with
  | nil => rfl
  | cons a l ih => simp [emissions, ih]

namespace Registry

def Leads (d : Design) (r : Registry) (specs : List ClockDeclaration) (r' : Registry) : Prop :=
  specs.foldlM (register d) r = .ok r'

theorem Leads.append {d : Design} {r r' r'' : Registry} {specs specs' : List ClockDeclaration}
    (h : Leads d r specs r') (h' : Leads d r' specs' r'') : Leads d r (specs ++ specs') r'' := by
  unfold Leads at h h' ⊢
  rw [List.foldlM_append, h]
  exact h'

theorem Leads.foldl {d : Design} {r r' : Registry} {specs : List ClockDeclaration}
    (h : r.Leads d specs r') :
    specs.foldl (fun r spec => (Operation.declare spec).apply d r) r = r' := by
  induction specs generalizing r with
  | nil => exact Except.ok.inj h
  | cons spec specs ih =>
    unfold Leads at h
    rw [List.foldlM_cons] at h
    cases hspec : r.register d spec with
    | error fault => rw [hspec] at h; cases h
    | ok r₁ =>
      rw [hspec] at h
      rw [List.foldl_cons, Operation.apply, hspec]
      exact ih h

theorem Leads.of_add {d : Design} {r r' : Registry} {spec : ClockDeclaration} {clock : Clock}
    {log : List Diagnostic} (h : r.add d spec = .ok (clock, r', log)) : Leads d r [spec] r' := by
  simp [Leads, register, h, Except.map]

end Registry

namespace Walk

def declares (d : Design) (dep : Departure) (k : Walk) (w : WireKey) : List ClockDeclaration :=
  if k.assigned.contains w || (k.registry.carrier? w).any (k.registry.settles dep) then []
  else (d.path? w).toList.map fun path =>
    .generated (k.registry.freeName path w) [w] dep.wave dep.source

section
variable {d : Design} {dep : Departure} {k k' : Walk} {target : WireKey}

structure Declines (d : Design) (dep : Departure) (k : Walk) (target : WireKey) (k' : Walk) :
    Prop where
  declares : declares d dep k target = []
  registry : k'.registry = k.registry
  queue : k'.queue = k.queue
  derived : k'.derived = k.derived
  assigned : k.assigned ⊆ k'.assigned
  log : k'.log = k.log

structure Derives (d : Design) (dep : Departure) (k : Walk) (target : WireKey) (k' : Walk)
    (path : String) : Prop where
  fresh : target ∉ k.assigned
  stale : ∀ c, k.registry.carrier? target = some c → k.registry.settles dep c = false
  address : d.path? target = some path
  declares : declares d dep k target =
    [.generated (k.registry.freeName path target) [target] dep.wave dep.source]
  leads : k.registry.Leads d (Walk.declares d dep k target) k'.registry
  completes : ∃ t : Registry.Transfer, k'.registry = t.registry ∧
    t.Completes k.registry (dep.clock (k.registry.freeName path target) target)
  queue : k'.queue = k.queue ++ [target]
  derived : k'.derived = k.derived + 1
  assigned : k'.assigned = target :: k.assigned
  log : ∃ gone, k'.log = k.log ++ dep.reports path
    (dep.clock (k.registry.freeName path target) target) (k.registry.carrier? target) gone

theorem Answer.declines_or_derives (ha : Answer d dep k target k') :
    Declines d dep k target k' ∨ ∃ path, Derives d dep k target k' path := by
  cases ha with
  | assigned hold => exact Or.inl ⟨if_pos (by simp [hold]), rfl, rfl, rfl, List.Subset.refl _, rfl⟩
  | settled c hnew hc hsettles =>
    exact Or.inl ⟨if_pos (by simp [hc, hsettles]), rfl, rfl, rfl, List.subset_cons_self _ _, rfl⟩
  | foreign hpath =>
    refine Or.inl ⟨?_, rfl, rfl, rfl, List.Subset.refl _, rfl⟩
    rw [Walk.declares, hpath]
    exact ite_self _
  | derived path t log hnew hstale hpath hadd ht hsound hlog =>
    obtain ⟨notes, hadd⟩ := hadd
    obtain ⟨gone, rfl⟩ := hlog
    have hopen : (k.registry.carrier? target).any (k.registry.settles dep) = false := by
      rw [Option.any_eq_false]
      simpa using hstale
    have hdeclares : declares d dep k target =
        [.generated (k.registry.freeName path target) [target] dep.wave dep.source] := by
      rw [declares, if_neg (by simp [hnew, hopen]), hpath]
      rfl
    exact Or.inr ⟨path, hnew, hstale, hpath, hdeclares,
      hdeclares ▸ Registry.Leads.of_add hadd, ⟨t, rfl, ht⟩, rfl, rfl, rfl, gone, rfl⟩

end

def outputDeclares (d : Design) (module : Nat) (source : Clock) (cell : Cell)
    (arriving : List String) (k : Walk) (out : Outlet) : List ClockDeclaration :=
  match outputWave out.transform source.wave cell.params with
  | .error _ => []
  | .ok wave =>
    let dep : Departure := ⟨source.name, wave, cell, arriving⟩
    emissions (visitTarget d dep) (declares d dep) k
      ((cell.wiresOn out.port).map (WireKey.mk module))

def readerDeclares (rules : RuleSet) (d : Design) (module : Nat) (source : Clock) (k : Walk)
    (reader : Cell × Reader) : List ClockDeclaration :=
  match rules.get? reader.1.kind with
  | none => []
  | some rule =>
    if rule.entersOn reader.2.port then
      let arriving := arriving k.registry module rule reader.1
      emissions (visitOutput d module source reader.1 arriving)
        (outputDeclares d module source reader.1 arriving) k rule.outputs
    else []

def wireDeclares (rules : RuleSet) (d : Design) (k : Walk) (w : WireKey) :
    List ClockDeclaration :=
  match k.registry.carrier? w with
  | none => []
  | some source => emissions (visitReader rules d w.module source)
    (readerDeclares rules d w.module source) k (d.readers w)

def runDeclares (rules : RuleSet) (d : Design) : Nat → Walk → List ClockDeclaration
  | 0, _ => []
  | fuel + 1, k => match k.queue with
    | [] => []
    | w :: queue => wireDeclares rules d { k with queue } w
        ++ runDeclares rules d fuel (visitWire rules d d.fanout { k with queue } w)

section
variable {rules : RuleSet} {d : Design} {w : WireKey} {source : Clock} {k : Walk}
  {I : Walk → List ClockDeclaration → Prop} {done : List ClockDeclaration}

/-- An invariant about a walk and what it declared so far, within the visit of a wire. -/
structure Records (rules : RuleSet) (d : Design) (w : WireKey) (source : Clock)
    (I : Walk → List ClockDeclaration → Prop) : Prop where
  report : ∀ k done n, n.code = Notice.malformedElement → I k done → I (k.report n) done
  offer : ∀ k done o r, o ∈ Offer.fromWire rules d w source → I k done →
    I (visitTarget d (o.departure r) k o.target) (done ++ declares d (o.departure r) k o.target)

namespace Records
variable {cell : Cell} {rule : Rule}

theorem visitOutput (hI : Records rules d w source I) {out : Outlet} (r : Registry)
    (hmem : ∀ o ∈ Offer.fromOutput w.module source cell rule out,
      o ∈ Offer.fromWire rules d w source) (hk : I k done) :
    I (visitOutput d w.module source cell (arriving r w.module rule cell) k out)
      (done ++ outputDeclares d w.module source cell (arriving r w.module rule cell) k out) := by
  simp only [Walk.visitOutput, outputDeclares, Offer.fromOutput] at hmem ⊢
  split
  · rename_i hempty
    have hnone : cell.wiresOn out.port = [] := by simpa using hempty
    cases outputWave out.transform source.wave cell.params <;> simpa [hnone, emissions] using hk
  · cases hwave : outputWave out.transform source.wave cell.params with
    | error reason => simpa using hI.report _ _ (Notice.malformed _ reason _ _) rfl hk
    | ok wave =>
      simp only [hwave] at hmem
      refine foldl_emissions (fun t ht k done hk => ?_) hk
      obtain ⟨i, hi, rfl⟩ := List.mem_map.mp ht
      exact hI.offer k done _ r (hmem _ (List.mem_map_of_mem hi)) hk

theorem visitReader (hI : Records rules d w source I) {reader : Cell × Reader}
    (hmem : ∀ o ∈ Offer.fromReader rules w.module source reader,
      o ∈ Offer.fromWire rules d w source) (hk : I k done) :
    I (visitReader rules d w.module source k reader)
      (done ++ readerDeclares rules d w.module source k reader) := by
  obtain ⟨cell, connection⟩ := reader
  simp only [Walk.visitReader, readerDeclares, Offer.fromReader] at hmem ⊢
  cases hrule : rules.get? cell.kind with
  | none => simpa using hk
  | some rule =>
    by_cases henters : rule.entersOn connection.port
    · simp only [hrule, henters, if_true] at hmem ⊢
      exact foldl_emissions (fun out hout k' done hk => hI.visitOutput k.registry
        (fun o ho => hmem o (List.mem_flatMap.mpr ⟨out, hout, ho⟩)) hk) hk
    · simpa [henters] using hk

end Records

theorem visitWire_declares
    (hI : ∀ source, k.registry.carrier? w = some source → Records rules d w source I)
    (hk : I k done) : I (visitWire rules d d.fanout k w) (done ++ wireDeclares rules d k w) := by
  unfold visitWire wireDeclares
  cases hsource : k.registry.carrier? w with
  | none => simpa using hk
  | some source =>
    exact foldl_emissions (fun reader hreader k done hk => (hI source hsource).visitReader
      (fun o ho => List.mem_flatMap.mpr ⟨reader, hreader, ho⟩) hk) hk

theorem run_declares
    (hvisit : ∀ k done w queue, k.queue = w :: queue → I k done →
      I (visitWire rules d d.fanout { k with queue } w)
        (done ++ wireDeclares rules d { k with queue } w))
    (n : Nat) (hk : I k done) : I (run rules d d.fanout n k) (done ++ runDeclares rules d n k) := by
  induction n generalizing k done with
  | zero => simpa [run, runDeclares] using hk
  | succ n ih =>
    unfold run runDeclares
    cases hqueue : k.queue with
    | nil => simpa using hk
    | cons w queue =>
      rw [← List.append_assoc]
      exact ih (hvisit k done w queue hqueue hk)

theorem offer_leads {o : Offer} (h : k.registry.Sound d)
    (ho : o ∈ Offer.fromWire rules d w source) (r : Registry) :
    k.registry.Leads d (declares d (o.departure r) k o.target)
      (visitTarget d (o.departure r) k o.target).registry := by
  obtain hno | ⟨path, hyes⟩ := (offer_answer h ho r).declines_or_derives
  · rw [hno.declares, hno.registry]
    rfl
  · exact hyes.leads

theorem visitWire_leads {r : Registry} (hsound : k.registry.Sound d) (h : r.Leads d done k.registry)
    (w : WireKey) :
    r.Leads d (done ++ wireDeclares rules d k w) (visitWire rules d d.fanout k w).registry := by
  refine (visitWire_declares (I := fun k done => k.registry.Sound d ∧ r.Leads d done k.registry)
    (fun source hsource => ⟨fun _ _ _ _ hk => hk, fun k done o r' ho hk => ?_⟩) ⟨hsound, h⟩).2
  exact ⟨(offer_answer hk.1 ho r').sound hk.1, hk.2.append (offer_leads hk.1 ho r')⟩

end
end Walk

def Pass.declares (p : Pass) (d : Design) (r : Registry) : List ClockDeclaration :=
  Walk.runDeclares p.rules d (r.wires.length + d.wireRefs.length) (.start r)

def Engine.declares (e : Engine) (d : Design) (r : Registry) : List ClockDeclaration :=
  match e.run d r with
  | .error _ => []
  | .ok _ => emissions (Engine.Progress.step d) (fun k p => p.declares d k.registry) ⟨r, [], []⟩ e

section
variable {d : Design} {I : Registry → List ClockDeclaration → Prop} {r : Registry}
  {done : List ClockDeclaration}

theorem Pass.walk_declares {p : Pass}
    (hvisit : ∀ k done w, I k.registry done →
      I (Walk.visitWire p.rules d d.fanout k w).registry (done ++ Walk.wireDeclares p.rules d k w))
    (h : I r done) : I (p.walk d r).registry (done ++ p.declares d r) :=
  Walk.run_declares (I := fun k done => I k.registry done)
    (fun k done w queue _ hk => hvisit { k with queue } done w hk) _ h

theorem Engine.apply_declares {e : Engine}
    (hvisit : ∀ p ∈ e, ∀ k done w, I k.registry done →
      I (Walk.visitWire p.rules d d.fanout k w).registry (done ++ Walk.wireDeclares p.rules d k w))
    (h : I r done) :
    I ((Registry.Operation.propagate e).apply d r) (done ++ e.declares d r) := by
  simp only [Engine.declares, Registry.Operation.apply]
  cases hrun : e.run d r with
  | error fault => simpa using h
  | ok out =>
    obtain ⟨report, r', log⟩ := out
    obtain ⟨rfl, -⟩ := Engine.run_ok hrun
    exact foldl_emissions (I := fun (k : Engine.Progress) done => I k.registry done)
      (fun p hp k done hk => Pass.walk_declares (hvisit p hp) hk) h

theorem Pass.declares_leads (p : Pass) (h : r.Sound d) :
    r.Leads d (p.declares d r) (p.walk d r).registry :=
  (p.walk_declares (I := fun r' done => r'.Sound d ∧ r.Leads d done r')
    (fun _ _ w hk => ⟨Walk.visitWire_sound hk.1 w, Walk.visitWire_leads hk.1 hk.2 w⟩)
    ⟨h, (rfl : r.Leads d [] r)⟩).2

end
end ClockTree
