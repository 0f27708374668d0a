import Mathlib.Logic.Relation
import ClockTree.Proofs.Propagation.Closure
import ClockTree.Proofs.Propagation.SinglePass
import ClockTree.Proofs.Rule.Tables

/-!
# Transparent passes

A pass whose outputs are all transparent hands waves on as they are. Started from explicit clocks it
gives a clock to exactly the wires that are reached over cells with a rule, and each of these clocks
has the wave of an explicit clock from which its wire is reached.
-/
namespace ClockTree

namespace RuleSet

def Joins (rules : RuleSet) (d : Design) (w t : WireKey) : Prop :=
  ∃ m, d.module? w.module = some m ∧ ∃ cell ∈ m.cells, ∃ rule, rules.get? cell.kind = some rule ∧
    (∃ connection ∈ cell.connections, connection.direction.reads ∧ connection.wire = w.wire ∧
      rule.entersOn connection.port) ∧
    ∃ out ∈ rule.outputs, ∃ i ∈ cell.wiresOn out.port, t = ⟨w.module, i⟩

def Reaches (rules : RuleSet) (d : Design) : WireKey → WireKey → Prop :=
  Relation.ReflTransGen (rules.Joins d)

end RuleSet

def Design.Wired (d : Design) : Prop :=
  ∀ m ∈ d.modules, ∀ cell ∈ m.cells, ∀ connection ∈ cell.connections,
    connection.wire < m.wires.length

instance : DecidablePred Design.Wired := fun d =>
  inferInstanceAs (Decidable (∀ m ∈ d.modules, ∀ cell ∈ m.cells,
    ∀ connection ∈ cell.connections, connection.wire < m.wires.length))

section
variable {rules : RuleSet} {d : Design} {r r' : Registry} {w t : WireKey}

theorem Design.Wired.isSome (h : d.Wired) (ht : rules.Joins d w t) : (d.wire? t).isSome := by
  obtain ⟨m, hm, cell, hcell, -, -, -, out, -, i, hi, rfl⟩ := ht
  obtain ⟨connection, hconnection, rfl⟩ := List.mem_map.mp hi
  have hlt := h m (List.mem_of_getElem? hm) cell hcell connection (List.mem_of_mem_filter hconnection)
  simp [Design.wire?, hm, hlt]

theorem Walk.joins_of_mem_fromWire {source : Clock} {o : Offer}
    (ho : o ∈ Offer.fromWire rules d w source) : rules.Joins d w o.target := by
  obtain ⟨-, ⟨m, hm, hcell⟩, hrule, hinput, out, hout, htarget, -⟩ := mem_fromWire ho
  obtain ⟨i, hi, htarget⟩ := List.mem_map.mp htarget
  exact ⟨m, hm, o.cell, hcell, o.rule, hrule, hinput, out, hout, i, hi, htarget.symm⟩

theorem Walk.wave_of_mem_fromWire (h : rules.Transparent) {source : Clock} {o : Offer}
    (ho : o ∈ Offer.fromWire rules d w source) : o.wave = source.wave := by
  obtain ⟨-, -, hrule, -, out, hout, -, -, happly⟩ := mem_fromWire ho
  rw [h.of_get? hrule out hout] at happly
  exact (Except.ok.inj happly).symm

namespace Registry

/-- Every clock has the wave of a clock of `r` from which its wires are reached. -/
def FedBy (rules : RuleSet) (d : Design) (r r' : Registry) : Prop :=
  ∀ c ∈ r'.clocks, ∀ t ∈ c.wires, ∃ b ∈ r.clocks, c.wave = b.wave ∧
    ∃ w ∈ b.wires, rules.Reaches d w t

theorem fedBy_refl (rules : RuleSet) (d : Design) (r : Registry) : FedBy rules d r r :=
  fun c hc t ht => ⟨c, hc, rfl, t, ht, Relation.ReflTransGen.refl⟩

theorem FedBy.place {c : Clock} {tr : Transfer} (h : FedBy rules d r r') (ht : tr.Completes r' c)
    (hc : ∀ t ∈ c.wires, ∃ b ∈ r.clocks, c.wave = b.wave ∧ ∃ w ∈ b.wires, rules.Reaches d w t) :
    FedBy rules d r tr.registry := by
  intro x hx t hw
  obtain ⟨rfl | ⟨b, hb, -, rfl⟩, -⟩ := ht.mem_clocks.mp hx
  · exact hc t hw
  · rw [Clock.after_wave]
    exact h b hb t (Clock.mem_after_wires.mp hw).1

theorem Closed.carries (h : r.Closed rules d) (hsound : r.Sound d) (hrules : rules.Transparent)
    (hwired : d.Wired) (hreaches : rules.Reaches d w t) (hw : (r.carrier? w).isSome) :
    (r.carrier? t).isSome := by
  induction hreaches with
  | refl => exact hw
  | @tail v u hreaches hjoins ih =>
    obtain ⟨c, hc⟩ := Option.isSome_iff_exists.mp ih
    have hinside := hwired.isSome hjoins
    obtain ⟨m, hm, cell, hcell, rule, hrule, ⟨connection, hconnection, hreads, hwire, henters⟩, out,
      hout, i, hi, rfl⟩ := hjoins
    have happly : out.transform.apply c.wave cell.params = .ok c.wave := by
      rw [hrules.of_get? hrule out hout]
      rfl
    have hvalid := hsound.valid c (hsound.coherent.carrier?_eq_some_iff.mp hc).1
    exact h v c hc m hm cell hcell connection hconnection hreads hwire rule hrule henters out hout
      c.wave happly hvalid i hi hinside

end Registry

namespace Walk

theorem visitWire_fedBy {k : Walk} (hrules : rules.Transparent) (hsound : k.registry.Sound d)
    (h : Registry.FedBy rules d r k.registry) (w : WireKey) :
    Registry.FedBy rules d r (visitWire rules d d.fanout k w).registry := by
  refine visitWire_induction (P := fun k => Registry.FedBy rules d r k.registry) hsound
    (fun _ _ _ hk => hk) (fun source hsource o ho r₀ k' k'' _ ha hk => ?_) h
  cases ha with
  | assigned => exact hk
  | settled => exact hk
  | foreign => exact hk
  | derived path t log hnew hstale hpath hadd ht hsound' hlog =>
    obtain ⟨hmem, hw⟩ := hsound.coherent.carrier?_eq_some_iff.mp hsource
    obtain ⟨b, hb, hwave, v, hv, hreaches⟩ := h source hmem w hw
    refine hk.place ht fun u hu => ⟨b, hb, (wave_of_mem_fromWire hrules ho).trans hwave, v, hv, ?_⟩
    rw [List.mem_singleton.mp hu]
    exact Relation.ReflTransGen.tail hreaches (joins_of_mem_fromWire ho)

end Walk

namespace Engine

/-- A transparent pass gives clocks to the wires that are reached from wires with clocks and to no
others, and a clock that it derives has the wave of one from which its wire is reached. -/
theorem transparent_pass_reaches (p : Pass) (h : r.Sound d) (htop : d.topModule?.isSome)
    (hclocks : r.isEmpty = false) (hexplicit : ∀ c ∈ r.clocks, c.isGenerated = false)
    (hrules : p.rules.Transparent) (hwired : d.Wired) :
    ∃ report r' log, Engine.run [p] d r = .ok (report, r', log) ∧
      (∀ t, (r'.carrier? t).isSome ↔ ∃ w, (r.carrier? w).isSome ∧ p.rules.Reaches d w t) ∧
      ∀ g ∈ r'.clocks, g.isGenerated → ∃ t, g.wires = [t] ∧
        ∃ c ∈ r.clocks, c.isGenerated = false ∧ g.wave = c.wave ∧
          ∃ w ∈ c.wires, p.rules.Reaches d w t := by
  obtain ⟨report, log, hrun, hcalm⟩ := run_single p h htop hclocks hexplicit
  have hsound := p.walk_sound h
  have hclosed := p.walk_closed h
  have hkept := (run_keeps h hrun hcalm).1
  have hsingle := (run_traced h (Registry.traced_of_explicit hexplicit) hrun).single
  have hfed : Registry.FedBy p.rules d r (p.walk d r).registry :=
    (run_induction (Q := fun r' => r'.Sound d ∧ Registry.FedBy p.rules d r r')
      (fun q hq _ w hk => by
        obtain rfl := List.mem_singleton.mp hq
        exact ⟨Walk.visitWire_sound hk.1 w, Walk.visitWire_fedBy hrules hk.1 hk.2 w⟩)
      ⟨h, Registry.fedBy_refl _ d r⟩ hrun).2
  generalize (p.walk d r).registry = r' at hrun hsound hclosed hkept hsingle hfed
  refine ⟨report, r', log, hrun, fun t => ⟨fun ht => ?_, fun hreached => ?_⟩, fun g hg hgen => ?_⟩
  · obtain ⟨c, hc⟩ := Option.isSome_iff_exists.mp ht
    obtain ⟨hmem, hw⟩ := hsound.coherent.carrier?_eq_some_iff.mp hc
    obtain ⟨b, hb, -, w, hwb, hreaches⟩ := hfed c hmem t hw
    exact ⟨w, Option.isSome_iff_exists.mpr
      ⟨b, h.coherent.carrier?_eq_some_iff.mpr ⟨hb, hwb⟩⟩, hreaches⟩
  · obtain ⟨w, hw, hreaches⟩ := hreached
    obtain ⟨c, hc⟩ := Option.isSome_iff_exists.mp hw
    have hcarried : (r'.carrier? w).isSome :=
      Option.isSome_iff_exists.mpr ⟨c, Registry.carrier?_mono h hsound hkept hc⟩
    exact hclosed.carries hsound hrules hwired hreaches hcarried
  · obtain ⟨t, ht⟩ := hsingle g hg hgen
    obtain ⟨b, hb, hwave, w, hw, hreaches⟩ := hfed g hg t (ht ▸ List.mem_singleton_self t)
    exact ⟨t, ht, b, hb, hexplicit b hb, hwave, w, hw, hreaches⟩

theorem transparent_pass_reaches_crossing :
    Design.crossing.topModule?.isSome ∧ Registry.atCrossing.isEmpty = false ∧
      (∀ c ∈ Registry.atCrossing.clocks, c.isGenerated = false) ∧
      bufferPass.rules.Transparent ∧ Design.crossing.Wired ∧
      ∃ report r' log, Engine.run [bufferPass] .crossing .atCrossing = .ok (report, r', log) ∧
        r'.clocks.map (fun c => (c.name, c.wires)) = [("slow", [⟨0, 1⟩]), ("fast", [⟨0, 0⟩]),
          ("x", [⟨0, 2⟩]), ("y", [⟨0, 3⟩])] ∧
        (∀ t, (r'.carrier? t).isSome ↔ ∃ w, (Registry.atCrossing.carrier? w).isSome ∧
          bufferPass.rules.Reaches .crossing w t) ∧
        ∀ g ∈ r'.clocks, g.isGenerated → ∃ t, g.wires = [t] ∧
          ∃ c ∈ Registry.atCrossing.clocks, c.isGenerated = false ∧ g.wave = c.wave ∧
            ∃ w ∈ c.wires, bufferPass.rules.Reaches .crossing w t := by
  have htop : Design.crossing.topModule?.isSome := by decide
  have hclocks : Registry.atCrossing.isEmpty = false := by decide +kernel
  have hwired : Design.crossing.Wired := by decide +kernel
  have hderived : ∀ out ∈ (Engine.run [bufferPass] .crossing .atCrossing).toOption,
      out.2.1.clocks.map (fun c => (c.name, c.wires)) = [("slow", [⟨0, 1⟩]), ("fast", [⟨0, 0⟩]),
        ("x", [⟨0, 2⟩]), ("y", [⟨0, 3⟩])] := by
    decide +kernel
  obtain ⟨report, r', log, hrun, hall⟩ := transparent_pass_reaches bufferPass
    Registry.atCrossing_sound htop hclocks Registry.atCrossing_explicit
    RuleSet.buffers_transparent hwired
  exact ⟨htop, hclocks, Registry.atCrossing_explicit, RuleSet.buffers_transparent, hwired, report,
    r', log, hrun, hderived _ (by rw [hrun]; rfl), hall⟩

end Engine
end
end ClockTree
