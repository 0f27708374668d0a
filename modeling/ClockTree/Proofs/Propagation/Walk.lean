import ClockTree.Propagation.Engine
import ClockTree.Proofs.Netlist.Fanout
import ClockTree.Proofs.Propagation.FreeName
import ClockTree.Proofs.Registry.Soundness

/-!
# Walks step by step

A visit to a wire makes an offer to each wire that one of its readers drives. `Answer` lists what a
wire can make of an offer, and `Later` says that one walk comes from another by reports and offers.
What visits preserve is preserved by a walk and by a run of an engine.
-/
namespace ClockTree

def Departure.clock (dep : Departure) (name : String) (w : WireKey) : Clock :=
  ⟨name, [w], dep.wave, .generated dep.source⟩

def Clock.warning (c : Clock) (path : String) (old : Clock) : Diagnostic :=
  if old.name = c.name then
    Notice.rederived c.name path (old.parent?.getD "?") (c.parent?.getD "?")
  else Notice.moved path old.name c.name

def Departure.reports (dep : Departure) (path : String) (c : Clock) (old? : Option Clock)
    (gone : List String) : List Diagnostic :=
  (old?.map (c.warning path)).toList ++ gone.map Notice.dropped
    ++ [Notice.derived c dep.source dep.cell]

theorem Clock.warning_code (c : Clock) (path : String) (old : Clock) :
    (c.warning path old).code = Notice.wireMoved := by
  unfold warning
  split <;> rfl

theorem Departure.reports_moved_iff {dep : Departure} {path : String} {c : Clock}
    {old? : Option Clock} {gone : List String} :
    (∃ n ∈ dep.reports path c old? gone, n.code = Notice.wireMoved) ↔ old?.isSome := by
  cases old? with
  | none =>
    simp [reports, Notice.dropped, Notice.derived, Notice.wireMoved, Notice.clockDropped,
      Notice.clockDerived]
  | some old => simp [reports, Clock.warning_code]

/-- A clock that a cell would give to a wire on one of its outputs. -/
structure Offer where
  source : Clock
  wave : Wave Float
  cell : Cell
  rule : Rule
  target : WireKey

namespace Offer

def departure (o : Offer) (r : Registry) : Departure :=
  ⟨o.source.name, o.wave, o.cell, Walk.arriving r o.target.module o.rule o.cell⟩

def fromOutput (module : Nat) (source : Clock) (cell : Cell) (rule : Rule) (out : Outlet) :
    List Offer :=
  match Walk.outputWave out.transform source.wave cell.params with
  | .error _ => []
  | .ok wave => (cell.wiresOn out.port).map fun i => ⟨source, wave, cell, rule, ⟨module, i⟩⟩

def fromReader (rules : RuleSet) (module : Nat) (source : Clock) (reader : Cell × Reader) :
    List Offer :=
  match rules.get? reader.1.kind with
  | none => []
  | some rule =>
    if rule.entersOn reader.2.port then
      rule.outputs.flatMap (fromOutput module source reader.1 rule)
    else []

def fromWire (rules : RuleSet) (d : Design) (w : WireKey) (source : Clock) : List Offer :=
  (d.readers w).flatMap (fromReader rules w.module source)

end Offer

theorem Registry.isGenerated_of_not_settles {r : Registry} {dep : Departure} {c : Clock}
    (h : r.settles dep c = false) : c.isGenerated := by
  unfold settles at h
  split at h
  · cases h
  · rename_i parent horigin
    simp [Clock.isGenerated, horigin]

namespace Walk
open Registry (Transfer)

theorem outputWave_ok {t : Transform} {wave out : Wave Float} {ps : Params}
    (h : outputWave t wave ps = .ok out) : t.apply wave ps = .ok out ∧ out.Valid := by
  unfold outputWave at h
  split at h
  · cases h
  · rename_i w happly
    split at h
    · cases h
    · rename_i hvalid
      cases h
      exact ⟨happly, hvalid⟩

theorem mem_fromWire {rules : RuleSet} {d : Design} {w : WireKey} {source : Clock} {o : Offer}
    (ho : o ∈ Offer.fromWire rules d w source) :
    o.source = source ∧ (∃ m, d.module? w.module = some m ∧ o.cell ∈ m.cells) ∧
      rules.get? o.cell.kind = some o.rule ∧
      (∃ c ∈ o.cell.connections, c.direction.reads ∧ c.wire = w.wire ∧ o.rule.entersOn c.port) ∧
      ∃ out ∈ o.rule.outputs, o.target ∈ (o.cell.wiresOn out.port).map (WireKey.mk w.module) ∧
        o.wave.Valid ∧ out.transform.apply source.wave o.cell.params = .ok o.wave := by
  obtain ⟨⟨cell, r⟩, hreader, ho⟩ := List.mem_flatMap.mp ho
  obtain ⟨m, hm, hcell, c, hc, hreads, hwire, hport⟩ := Design.mem_readers.mp hreader
  unfold Offer.fromReader at ho
  split at ho
  · cases ho
  · rename_i rule hrule
    split at ho
    · rename_i henters
      obtain ⟨out, hout, ho⟩ := List.mem_flatMap.mp ho
      unfold Offer.fromOutput at ho
      split at ho
      · cases ho
      · rename_i wave hwave
        obtain ⟨i, hi, rfl⟩ := List.mem_map.mp ho
        obtain ⟨happly, hvalid⟩ := outputWave_ok hwave
        exact ⟨rfl, ⟨m, hm, List.mem_of_getElem? hcell⟩, hrule,
          ⟨c, hc, hreads, hwire, hport ▸ henters⟩, out, hout, List.mem_map_of_mem hi, hvalid, happly⟩
    · cases ho

/-- What becomes of a walk when a departure is offered to a wire. -/
inductive Answer (d : Design) (dep : Departure) (k : Walk) (target : WireKey) : Walk → Prop where
  | assigned (h : target ∈ k.assigned) : Answer d dep k target k
  | settled (c : Clock) (hnew : target ∉ k.assigned) (hc : k.registry.carrier? target = some c)
      (hsettles : k.registry.settles dep c) :
      Answer d dep k target { k with assigned := target :: k.assigned }
  | foreign (hpath : d.path? target = none) : Answer d dep k target k
  | derived (path : String) (t : Transfer) (log : List Diagnostic) (hnew : target ∉ k.assigned)
      (hstale : ∀ c, k.registry.carrier? target = some c → k.registry.settles dep c = false)
      (hpath : d.path? target = some path)
      (hadd : ∃ notes, k.registry.add d (.generated (k.registry.freeName path target) [target]
        dep.wave dep.source) =
          .ok (dep.clock (k.registry.freeName path target) target, t.registry, notes))
      (ht : t.Completes k.registry (dep.clock (k.registry.freeName path target) target))
      (hsound : t.registry.Sound d)
      (hlog : ∃ gone, log = dep.reports path (dep.clock (k.registry.freeName path target) target)
        (k.registry.carrier? target) gone) :
      Answer d dep k target
        ⟨t.registry, k.queue ++ [target], target :: k.assigned, k.log ++ log, k.derived + 1⟩

section
variable {d : Design} {dep : Departure} {k : Walk} {target : WireKey}

theorem path?_isSome : (d.path? target).isSome = (d.wire? target).isSome := by
  unfold Design.path? Design.wire?
  cases d.module? target.module with
  | none => rfl
  | some m => cases hw : m.wires[target.wire]? <;> simp [hw]

theorem wire?_of_path {path : String} (h : d.path? target = some path) :
    (d.wire? target).isSome := by
  rw [← path?_isSome, h]
  rfl

theorem moved_single {r : Registry} {c : Clock} {t : Transfer} (ht : t.Completes r c)
    (hc : c.wires = [target]) :
    t.moved = (((r.carrier? target).filter (·.name != c.name)).map
      fun b => (target, b.name)).toList := by
  rw [ht.moved, hc]
  cases h : ((r.carrier? target).filter (·.name != c.name)) <;> simp [h]

/-- A clock that has to leave the wire is reported by the pass when it has the name of the new one,
since the registry releases the wires of that name first, and by the registry otherwise. -/
theorem reported_once {r : Registry} {c : Clock} {t : Transfer} {path : String}
    (ht : t.Completes r c) (hc : c.wires = [target]) (hpath : d.path? target = some path) :
    (((r.carrier? target).filter (·.name = c.name)).map fun old =>
        Notice.rederived c.name path (old.parent?.getD "?") (c.parent?.getD "?")).toList ++
      t.moved.map (fun (w, owner) => Notice.moved ((d.path? w).getD w.describe) owner c.name) =
    ((r.carrier? target).map (c.warning path)).toList := by
  rw [moved_single ht hc]
  cases r.carrier? target with
  | none => rfl
  | some old =>
    by_cases hname : old.name = c.name <;>
      simp [Option.filter, hname, hpath, Clock.warning]

theorem settle_eq {path : String} (hpath : d.path? target = some path) :
    let name := k.registry.freeName path target
    k.settle d dep target = ({ k with log := k.log ++
      (((k.registry.carrier? target).filter (·.name = name)).map fun old =>
        Notice.rederived name path (old.parent?.getD "?") dep.source).toList } : Walk).derive
          d dep target name := by
  simp only [settle, hpath]
  cases k.registry.carrier? target with
  | none => simp
  | some old =>
    by_cases hname : old.name = k.registry.freeName path target <;>
      simp [Option.filter, hname, report]

theorem settle_answer (h : k.registry.Sound d) (hwave : dep.wave.Valid)
    (hnew : target ∉ k.assigned)
    (hstale : ∀ c, k.registry.carrier? target = some c → k.registry.settles dep c = false) :
    Answer d dep k target (k.settle d dep target) := by
  cases hpath : d.path? target with
  | none =>
    rw [settle, hpath]
    exact .foreign hpath
  | some path =>
    have hspec : Registry.refuse? d (ClockDeclaration.generated (k.registry.freeName path target)
        [target] dep.wave dep.source) = none :=
      Registry.refuse?_eq_none_iff.mpr ⟨hwave, List.cons_ne_nil target [],
        fun w hw => List.mem_singleton.mp hw ▸ wire?_of_path hpath⟩
    obtain ⟨fault, hfault, -⟩ | ⟨t, -, ht, hsound, hadd⟩ := h.add_cases (ClockDeclaration.generated
        (k.registry.freeName path target) [target] dep.wave dep.source)
    · rw [hspec] at hfault
      cases hfault
    · simp only [settle_eq hpath, derive, hadd, List.append_assoc]
      refine .derived path t _ hnew hstale hpath ⟨_, hadd⟩ ht hsound ⟨t.emptied, ?_⟩
      have honce := reported_once (c := dep.clock (k.registry.freeName path target) target) ht rfl
        hpath
      rw [Departure.reports, ← honce, List.append_assoc, List.append_assoc]
      rfl

theorem visitTarget_answer (h : k.registry.Sound d) (hwave : dep.wave.Valid) :
    Answer d dep k target (visitTarget d dep k target) := by
  unfold visitTarget
  by_cases hnew : target ∈ k.assigned
  · rw [if_pos (List.contains_iff_mem.mpr hnew)]
    exact .assigned hnew
  · rw [if_neg (by rwa [List.contains_iff_mem])]
    cases hc : k.registry.carrier? target with
    | none => exact settle_answer h hwave hnew (by simp [hc])
    | some c =>
      cases hsettles : k.registry.settles dep c with
      | true =>
        simp only [hsettles, if_true]
        exact .settled c hnew hc hsettles
      | false =>
        simp only [hsettles, Bool.false_eq_true, if_false]
        exact settle_answer h hwave hnew (by simp [hc, hsettles])

theorem offer_answer {rules : RuleSet} {w : WireKey} {source : Clock} {o : Offer}
    (h : k.registry.Sound d) (ho : o ∈ Offer.fromWire rules d w source) (r : Registry) :
    Answer d (o.departure r) k o.target (visitTarget d (o.departure r) k o.target) := by
  obtain ⟨-, -, -, -, -, -, -, hvalid, -⟩ := mem_fromWire ho
  have hwave : (o.departure r).wave.Valid := hvalid
  exact visitTarget_answer h hwave

theorem Answer.sound {k' : Walk} (h : k.registry.Sound d) (ha : Answer d dep k target k') :
    k'.registry.Sound d := by
  cases ha with
  | assigned => exact h
  | settled => exact h
  | foreign => exact h
  | derived path t log hnew hstale hpath hadd ht hsound hlog => exact hsound

end

theorem foldl_accumulates {σ α β : Type} {I : σ → List β → Prop} {g : σ → α → σ} {f : α → List β}
    {l : List α} (hstep : ∀ a ∈ l, ∀ k done, I k done → I (g k a) (done ++ f a)) {k : σ}
    {done : List β} (hk : I k done) : I (l.foldl g k) (done ++ l.flatMap f) := by
  induction l generalizing k done with
  | nil => simpa using hk
  | cons a l ih =>
    rw [List.foldl_cons, List.flatMap_cons, ← List.append_assoc]
    exact ih (fun b hb => hstep b (List.mem_cons_of_mem a hb))
      (hstep a List.mem_cons_self k done hk)

inductive Later (rules : RuleSet) (d : Design) (w : WireKey) (source : Clock) (k₀ : Walk) :
    Walk → Prop where
  | refl : Later rules d w source k₀ k₀
  | report (n : Diagnostic) {k : Walk} (hcode : n.code ≠ Notice.wireMoved)
      (h : Later rules d w source k₀ k) : Later rules d w source k₀ (k.report n)
  | offer (o : Offer) (r : Registry) {k : Walk} (ho : o ∈ Offer.fromWire rules d w source)
      (h : Later rules d w source k₀ k) :
      Later rules d w source k₀ (visitTarget d (o.departure r) k o.target)

theorem Later.trans {rules : RuleSet} {d : Design} {w : WireKey} {source : Clock}
    {k₀ k₁ k₂ : Walk} (h : Later rules d w source k₀ k₁) (h' : Later rules d w source k₁ k₂) :
    Later rules d w source k₀ k₂ := by
  induction h' with
  | refl => exact h
  | report n hcode h' ih => exact ih.report n hcode
  | offer o r ho h' ih => exact ih.offer o r ho

/-- An invariant about the walk and the offers made so far in the visit that starts in `k₀`. The
clocks that arrive at a cell are looked up before the cell makes its first offer, in `k₁`. -/
structure Accumulates (rules : RuleSet) (d : Design) (w : WireKey) (source : Clock) (k₀ : Walk)
    (I : Walk → List Offer → Prop) : Prop where
  report : ∀ k done n, n.code ≠ Notice.wireMoved → I k done → I (k.report n) done
  offer : ∀ k₁ k done o, Later rules d w source k₀ k₁ → Later rules d w source k₁ k → I k done →
    o ∈ Offer.fromWire rules d w source →
    I (visitTarget d (o.departure k₁.registry) k o.target) (done ++ [o])

section
variable {rules : RuleSet} {d : Design} {w : WireKey} {source : Clock} {k₀ k₁ k : Walk}

namespace Accumulates
variable {I : Walk → List Offer → Prop} {done : List Offer} {cell : Cell} {rule : Rule}

theorem visitOutput (hI : Accumulates rules d w source k₀ I) {out : Outlet}
    (hstart : Later rules d w source k₀ k₁)
    (hmem : ∀ o ∈ Offer.fromOutput w.module source cell rule out,
      o ∈ Offer.fromWire rules d w source)
    (hl : Later rules d w source k₁ k) (hk : I k done) :
    Later rules d w source k₁
        (visitOutput d w.module source cell (arriving k₁.registry w.module rule cell) k out) ∧
      I (visitOutput d w.module source cell (arriving k₁.registry w.module rule cell) k out)
        (done ++ Offer.fromOutput w.module source cell rule out) := by
  simp only [Walk.visitOutput, Offer.fromOutput] at hmem ⊢
  split
  · rename_i hempty
    have hnone : cell.wiresOn out.port = [] := by simpa using hempty
    cases outputWave out.transform source.wave cell.params <;> simpa [hnone] using And.intro hl hk
  · split
    · rename_i reason hwave
      have hcode : (Notice.malformed cell reason source.name out.port).code ≠ Notice.wireMoved := by
        simp [Notice.malformed, Notice.malformedElement, Notice.wireMoved]
      simpa [hwave] using And.intro (Later.report _ hcode hl) (hI.report _ _ _ hcode hk)
    · rename_i wave hwave
      simp only [hwave] at hmem ⊢
      rw [List.foldl_map, List.map_eq_flatMap]
      refine foldl_accumulates (I := fun k done => Later rules d w source k₁ k ∧ I k done)
        (fun i hi k done hk => ?_) ⟨hl, hk⟩
      have ho := hmem _ (List.mem_map_of_mem hi)
      exact ⟨.offer _ k₁.registry ho hk.1, hI.offer k₁ k done _ hstart hk.1 hk.2 ho⟩

theorem visitReader (hI : Accumulates rules d w source k₀ I) {reader : Cell × Reader}
    (hmem : ∀ o ∈ Offer.fromReader rules w.module source reader,
      o ∈ Offer.fromWire rules d w source)
    (hl : Later rules d w source k₀ k) (hk : I k done) :
    Later rules d w source k₀ (visitReader rules d w.module source k reader) ∧
      I (visitReader rules d w.module source k reader)
        (done ++ Offer.fromReader rules w.module source reader) := by
  obtain ⟨cell, connection⟩ := reader
  simp only [Walk.visitReader, Offer.fromReader] at hmem ⊢
  cases hrule : rules.get? cell.kind with
  | none => simpa using And.intro hl hk
  | some rule =>
    by_cases henters : rule.entersOn connection.port
    · simp only [hrule, henters, if_true] at hmem ⊢
      -- within the cell the offers count from the walk in which the cell starts
      have hcell := foldl_accumulates (I := fun k' done => Later rules d w source k k' ∧ I k' done)
        (g := Walk.visitOutput d w.module source cell (arriving k.registry w.module rule cell))
        (f := Offer.fromOutput w.module source cell rule) (l := rule.outputs)
        (fun out hout k' done hk' => hI.visitOutput hl
          (fun o ho => hmem o (List.mem_flatMap.mpr ⟨out, hout, ho⟩)) hk'.1 hk'.2) ⟨.refl, hk⟩
      exact ⟨hl.trans hcell.1, hcell.2⟩
    · simpa [hrule, henters] using And.intro hl hk

theorem visitWire (hI : Accumulates rules d w source k₀ I) (done : List Offer)
    (hsource : k₀.registry.carrier? w = some source) (hk : I k₀ done) :
    I (visitWire rules d d.fanout k₀ w) (done ++ Offer.fromWire rules d w source) := by
  unfold Walk.visitWire
  rw [hsource]
  refine (foldl_accumulates (I := fun k done => Later rules d w source k₀ k ∧ I k done)
    (fun reader hreader k done hk => ?_) ⟨.refl, hk⟩).2
  exact hI.visitReader (fun o ho => List.mem_flatMap.mpr ⟨reader, hreader, ho⟩) hk.1 hk.2

end Accumulates

theorem later_accumulates :
    Accumulates rules d w source k₀ fun k _ => Later rules d w source k₀ k where
  report _ _ n hcode h := h.report n hcode
  offer k₁ _ _ o _ _ h ho := h.offer o k₁.registry ho

theorem visitWire_later (hsource : k.registry.carrier? w = some source) :
    Later rules d w source k (visitWire rules d d.fanout k w) :=
  later_accumulates.visitWire [] hsource .refl

theorem visitWire_of_free (hsource : k.registry.carrier? w = none) :
    visitWire rules d d.fanout k w = k := by
  unfold visitWire
  rw [hsource]

theorem Later.sound {k' : Walk} (hl : Later rules d w source k k') (h : k.registry.Sound d) :
    k'.registry.Sound d := by
  induction hl with
  | refl => exact h
  | report n hcode hl ih => exact ih
  | offer o r ho hl ih => exact (offer_answer ih ho r).sound ih

theorem visitWire_induction {P : Walk → Prop} (hsound : k.registry.Sound d)
    (hreport : ∀ k n, n.code ≠ Notice.wireMoved → P k → P (k.report n))
    (hanswer : ∀ source, k.registry.carrier? w = some source →
      ∀ o ∈ Offer.fromWire rules d w source, ∀ r k' k'', k'.registry.Sound d →
        Answer d (o.departure r) k' o.target k'' → P k' → P k'')
    (h : P k) : P (visitWire rules d d.fanout k w) := by
  cases hsource : k.registry.carrier? w with
  | none => rwa [visitWire_of_free hsource]
  | some source =>
    have hl : Later rules d w source k (visitWire rules d d.fanout k w) := visitWire_later hsource
    generalize visitWire rules d d.fanout k w = k' at hl
    induction hl with
    | refl => exact h
    | report n hcode hl ih => exact hreport _ n hcode ih
    | offer o r ho hl ih =>
      have hbefore := hl.sound hsound
      exact hanswer source hsource o ho r _ _ hbefore (offer_answer hbefore ho r) ih

theorem visitWire_sound (h : k.registry.Sound d) (w : WireKey) :
    (visitWire rules d d.fanout k w).registry.Sound d :=
  visitWire_induction (P := fun k => k.registry.Sound d) h (fun _ _ _ hk => hk)
    (fun _ _ _ _ _ _ _ _ ha hk => ha.sound hk) h

theorem run_induction {P : Walk → Prop}
    (hvisit : ∀ k w queue, P k → k.queue = w :: queue →
      P (visitWire rules d d.fanout { k with queue } w))
    (n : Nat) {k : Walk} (hk : P k) : P (run rules d d.fanout n k) := by
  induction n generalizing k with
  | zero => exact hk
  | succ n ih =>
    unfold run
    split
    · exact hk
    · rename_i w queue hqueue
      exact ih (hvisit k w queue hk hqueue)

theorem run_sound (n : Nat) {k : Walk} (h : k.registry.Sound d) :
    (run rules d d.fanout n k).registry.Sound d :=
  run_induction (P := fun k => k.registry.Sound d)
    (fun k w queue hk _ => visitWire_sound (k := { k with queue }) hk w) n h

end

end Walk

theorem Pass.walk_sound (p : Pass) {d : Design} {r : Registry} (h : r.Sound d) :
    (p.walk d r).registry.Sound d :=
  Walk.run_sound _ h

theorem Engine.run_ok {e : Engine} {d : Design} {r r' : Registry} {report : PropagationReport}
    {log : List Diagnostic} (hrun : e.run d r = .ok (report, r', log)) :
    r' = (e.progress d r).registry ∧ ∃ target : Option DelayTarget,
      log = (e.progress d r).log ++ target.toList.map Notice.targeted := by
  unfold run at hrun
  split at hrun
  · cases hrun
  · split at hrun
    · cases hrun
    · cases hrun
      exact ⟨rfl, _, rfl⟩

theorem Engine.run_passes {e : Engine} {d : Design} {r r' : Registry}
    {report : PropagationReport} {log : List Diagnostic}
    (hrun : e.run d r = .ok (report, r', log)) : report.passes = (e.progress d r).passes := by
  unfold run at hrun
  split at hrun
  · cases hrun
  · split at hrun <;> cases hrun
    rfl

theorem Engine.run_induction {Q : Registry → Prop} {e : Engine} {d : Design}
    (hvisit : ∀ p ∈ e, ∀ k w, Q k.registry → Q (Walk.visitWire p.rules d d.fanout k w).registry)
    {r r' : Registry} {report : PropagationReport} {log : List Diagnostic} (h : Q r)
    (hrun : e.run d r = .ok (report, r', log)) : Q r' := by
  obtain ⟨rfl, -⟩ := run_ok hrun
  refine List.foldlRecOn (motive := fun k : Progress => Q k.registry) _ _ h fun k hk p hp => ?_
  exact Walk.run_induction (P := fun k => Q k.registry)
    (fun k w queue hk _ => hvisit p hp { k with queue } w hk) _ hk

theorem Engine.progress_sound (e : Engine) {d : Design} {r : Registry} (h : r.Sound d) :
    (e.progress d r).registry.Sound d :=
  List.foldlRecOn (motive := fun k : Progress => k.registry.Sound d) _ _ h
    fun _ hk p _ => p.walk_sound hk

theorem Engine.run_sound {e : Engine} {d : Design} {r r' : Registry} {report : PropagationReport}
    {log : List Diagnostic} (h : r.Sound d) (hrun : e.run d r = .ok (report, r', log)) :
    r'.Sound d :=
  run_induction (Q := Registry.Sound d) (fun _ _ _ w hk => Walk.visitWire_sound hk w) h hrun

end ClockTree
