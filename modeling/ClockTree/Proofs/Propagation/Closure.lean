import ClockTree.Proofs.Propagation.Declarations
import ClockTree.Proofs.Propagation.Frame
import ClockTree.Proofs.Propagation.Fuel

/-!
# Closed registries

A registry is closed under a table of rules when every clock has reached each wire that a cell would
give a clock derived from it. Until the end of a pass a wire that carries a clock waits in the queue,
or the offers that its clock makes have been made. A clock that replaces another in the meantime puts
its wire into the queue, and a clock that only loses wires makes the offers that it made before.
-/
namespace ClockTree

/-- Every wire on an output of a cell carries a clock if the cell's rule gives it one that is derived
from the clock on a wire that the cell reads. -/
def Registry.Closed (rules : RuleSet) (d : Design) (r : Registry) : Prop :=
  ∀ w c, r.carrier? w = some c → ∀ m, d.module? w.module = some m → ∀ cell ∈ m.cells,
    ∀ connection ∈ cell.connections, connection.direction.reads → connection.wire = w.wire →
    ∀ rule, rules.get? cell.kind = some rule → rule.entersOn connection.port →
    ∀ out ∈ rule.outputs, ∀ wave, out.transform.apply c.wave cell.params = .ok wave → wave.Valid →
    ∀ i ∈ cell.wiresOn out.port, (d.wire? ⟨w.module, i⟩).isSome →
      (r.carrier? ⟨w.module, i⟩).isSome

namespace Walk
variable {rules : RuleSet} {d : Design} {w : WireKey} {source : Clock} {k k' : Walk}

theorem outputWave_eq {t : Transform} {wave out : Wave Float} {ps : Params}
    (happly : t.apply wave ps = .ok out) (hvalid : out.Valid) : outputWave t wave ps = .ok out := by
  unfold Wave.Valid at hvalid
  simp [outputWave, happly, hvalid]

theorem fromWire_of_connection {m : Module} (hm : d.module? w.module = some m) {cell : Cell}
    (hcell : cell ∈ m.cells) {rule : Rule} (hrule : rules.get? cell.kind = some rule)
    (hinput : ∃ c ∈ cell.connections, c.direction.reads ∧ c.wire = w.wire ∧ rule.entersOn c.port)
    {out : Outlet} (hout : out ∈ rule.outputs) {wave : Wave Float}
    (happly : out.transform.apply source.wave cell.params = .ok wave) (hvalid : wave.Valid) {i : Nat}
    (hi : i ∈ cell.wiresOn out.port) :
    ⟨source, wave, cell, rule, ⟨w.module, i⟩⟩ ∈ Offer.fromWire rules d w source := by
  obtain ⟨j, hj⟩ := List.getElem?_of_mem hcell
  obtain ⟨c, hc, hreads, hwire, henters⟩ := hinput
  refine List.mem_flatMap.mpr ⟨(cell, ⟨j, c.port⟩),
    Design.mem_readers.mpr ⟨m, hm, hj, c, hc, hreads, hwire, rfl⟩, ?_⟩
  simp only [Offer.fromReader, hrule, henters, if_true, List.mem_flatMap]
  refine ⟨out, hout, ?_⟩
  simp only [Offer.fromOutput, outputWave_eq happly hvalid]
  exact List.mem_map_of_mem hi

def Served (rules : RuleSet) (d : Design) (r : Registry) (w : WireKey) (c : Clock) : Prop :=
  ∀ o ∈ Offer.fromWire rules d w c, (d.wire? o.target).isSome → o.target ∈ r.wires

theorem Served.mono {r r' : Registry} {c : Clock} (h : Served rules d r w c)
    (hsub : r.wires ⊆ r'.wires) : Served rules d r' w c :=
  fun o ho hinside => hsub (h o ho hinside)

theorem Served.of_wave {r : Registry} {b c : Clock} (h : Served rules d r w b)
    (hwave : b.wave = c.wave) : Served rules d r w c := by
  intro o ho hinside
  obtain ⟨-, ⟨m, hm, hcell⟩, hrule, hinput, out, hout, htarget, hvalid, happly⟩ := mem_fromWire ho
  obtain ⟨i, hi, htarget⟩ := List.mem_map.mp htarget
  have hb : ⟨b, o.wave, o.cell, o.rule, ⟨w.module, i⟩⟩ ∈ Offer.fromWire rules d w b :=
    fromWire_of_connection hm hcell hrule hinput hout (hwave ▸ happly) hvalid hi
  rw [← htarget] at hinside ⊢
  exact h _ hb hinside

/-- Every wire that carries a clock is still to be visited, or else its clock is served or it is in
`S`. -/
structure Spreads (rules : RuleSet) (d : Design) (S : WireKey → Clock → Prop) (k : Walk) : Prop where
  sound : k.registry.Sound d
  assigned : k.assigned ⊆ k.registry.wires
  served : ∀ w c, k.registry.carrier? w = some c → w ∈ k.queue ∨ Served rules d k.registry w c ∨ S w c

theorem Spreads.mono {S S' : WireKey → Clock → Prop} (h : Spreads rules d S k)
    (hS : ∀ w c, k.registry.carrier? w = some c → S w c →
      w ∈ k.queue ∨ Served rules d k.registry w c ∨ S' w c) : Spreads rules d S' k where
  sound := h.sound
  assigned := h.assigned
  served w c hc := by
    obtain hqueue | hserved | hS' := h.served w c hc
    · exact Or.inl hqueue
    · exact Or.inr (Or.inl hserved)
    · exact hS w c hc hS'

theorem Answer.spreads {dep : Departure} {target : WireKey} {S : WireKey → Clock → Prop}
    (hS : ∀ w b c, b.wave = c.wave → S w b → S w c) (h : Spreads rules d S k)
    (ha : Answer d dep k target k') : Spreads rules d S k' := by
  have hsub := ha.wires_subset h.sound
  cases ha with
  | assigned => exact h
  | foreign => exact h
  | settled c hnew hc hsettles =>
    exact ⟨h.sound, List.cons_subset.mpr ⟨h.sound.coherent.mem_wires_iff.mpr ⟨c, hc⟩, h.assigned⟩,
      h.served⟩
  | derived path t log hnew hstale hpath hadd ht hsound hlog =>
    have hcarrier : t.registry.carrier? target =
        some (dep.clock (k.registry.freeName path target) target) :=
      hsound.coherent.carrier?_eq_some_iff.mpr
        ⟨ht.mem_new (List.cons_ne_nil _ _), List.mem_singleton_self target⟩
    refine ⟨hsound, List.cons_subset.mpr ⟨hsound.coherent.mem_wires_iff.mpr ⟨_, hcarrier⟩,
      List.Subset.trans h.assigned hsub⟩, fun w c hc => ?_⟩
    by_cases hw : w = target
    · left
      simp [hw]
    · -- off the target the clock is what an old one became
      obtain ⟨hmem, hwc⟩ := hsound.coherent.carrier?_eq_some_iff.mp hc
      obtain ⟨rfl | ⟨b, hb, hname, rfl⟩, -⟩ := ht.mem_clocks.mp hmem
      · exact absurd (List.mem_singleton.mp hwc) hw
      · have hwave := (Clock.after_wave (dep.clock (k.registry.freeName path target) target).name
          (dep.clock (k.registry.freeName path target) target).wires b).symm
        have hold := h.sound.coherent.carrier?_eq_some_iff.mpr
          ⟨hb, (Clock.mem_after_wires.mp hwc).1⟩
        obtain hqueue | hserved | hother := h.served w b hold
        · exact Or.inl (List.mem_append_left _ hqueue)
        · exact Or.inr (Or.inl ((hserved.of_wave hwave).mono hsub))
        · exact Or.inr (Or.inr (hS w b _ hwave hother))

theorem Answer.target_mem {dep : Departure} {target : WireKey}
    (hassigned : k.assigned ⊆ k.registry.wires) (h : k.registry.Sound d)
    (ha : Answer d dep k target k') (hinside : (d.wire? target).isSome) :
    target ∈ k'.registry.wires := by
  cases ha with
  | assigned hold => exact hassigned hold
  | settled c hnew hc hsettles => exact h.coherent.mem_wires_iff.mpr ⟨c, hc⟩
  | foreign hpath =>
    rw [← path?_isSome, hpath] at hinside
    cases hinside
  | derived path t log hnew hstale hpath hadd ht hsound hlog =>
    rw [Registry.wires, List.mem_flatMap]
    exact ⟨_, ht.mem_new (List.cons_ne_nil _ _), List.mem_singleton_self target⟩

theorem spreads_accumulates (k₀ : Walk) : Accumulates rules d w source k₀ fun k done =>
    Spreads rules d (fun w' c => w' = w ∧ source.wave = c.wave) k ∧
      ∀ o ∈ done, (d.wire? o.target).isSome → o.target ∈ k.registry.wires where
  report _ _ _ _ hk := ⟨⟨hk.1.sound, hk.1.assigned, hk.1.served⟩, hk.2⟩
  offer k₁ k done o _ _ hk ho := by
    obtain ⟨hspreads, hdone⟩ := hk
    have ha := offer_answer hspreads.sound ho k₁.registry
    refine ⟨ha.spreads (fun _ _ _ hwave hS => ⟨hS.1, hS.2.trans hwave⟩) hspreads,
      fun o' ho' hinside => ?_⟩
    obtain hold | hnew := List.mem_append.mp ho'
    · exact ha.wires_subset hspreads.sound (hdone o' hold hinside)
    · rw [List.mem_singleton.mp hnew] at hinside ⊢
      exact ha.target_mem hspreads.assigned hspreads.sound hinside

theorem visitWire_spreads {queue : List WireKey} (h : Spreads rules d (fun _ _ => False) k)
    (hqueue : k.queue = w :: queue) :
    Spreads rules d (fun _ _ => False) (visitWire rules d d.fanout { k with queue } w) := by
  have hpop : ∀ w' c, k.registry.carrier? w' = some c →
      w' ∈ queue ∨ Served rules d k.registry w' c ∨ w' = w := by
    intro w' c hc
    obtain hw' | hserved | hfalse := h.served w' c hc
    · rw [hqueue, List.mem_cons] at hw'
      exact hw'.symm.imp_right Or.inr
    · exact Or.inr (Or.inl hserved)
    · exact hfalse.elim
  cases hsource : k.registry.carrier? w with
  | none =>
    rw [visitWire_of_free (k := { k with queue }) hsource]
    refine ⟨h.sound, h.assigned, fun w' c hc => ?_⟩
    obtain hw' | hserved | rfl := hpop w' c hc
    · exact Or.inl hw'
    · exact Or.inr (Or.inl hserved)
    · rw [show k.registry.carrier? w' = some c from hc] at hsource
      cases hsource
  | some source =>
    have hstart : Spreads rules d (fun w' c => w' = w ∧ source.wave = c.wave) { k with queue } := by
      refine ⟨h.sound, h.assigned, fun w' c hc => ?_⟩
      obtain hw' | hserved | rfl := hpop w' c hc
      · exact Or.inl hw'
      · exact Or.inr (Or.inl hserved)
      · obtain rfl : source = c := Option.some.inj (hsource.symm.trans hc)
        exact Or.inr (Or.inr ⟨rfl, rfl⟩)
    obtain ⟨hspreads, hdone⟩ := (spreads_accumulates { k with queue }).visitWire [] hsource
      ⟨hstart, fun o ho => absurd ho List.not_mem_nil⟩
    -- all offers of the wire have been made, so its clock is served, also if it lost wires meanwhile
    refine hspreads.mono fun w' c hc hS => ?_
    obtain ⟨rfl, hwave⟩ := hS
    have hserved : Served rules d (visitWire rules d d.fanout { k with queue } w').registry w'
        source := hdone
    exact Or.inr (Or.inl (hserved.of_wave hwave))

end Walk

theorem Pass.walk_closed (p : Pass) {d : Design} {r : Registry} (h : r.Sound d) :
    (p.walk d r).registry.Closed p.rules d := by
  have hstart : Walk.Spreads p.rules d (fun _ _ => False) (.start r) :=
    ⟨h, List.nil_subset _, fun w c hc => Or.inl (h.coherent.mem_wires_iff.mpr ⟨c, hc⟩)⟩
  have hend : Walk.Spreads p.rules d (fun _ _ => False) (p.walk d r) :=
    Walk.run_induction (fun _ _ _ hk hqueue => Walk.visitWire_spreads hk hqueue) _ hstart
  intro w c hc m hm cell hcell connection hconnection hreads hwire rule hrule henters out hout wave
    happly hvalid i hi hinside
  have hserved : Walk.Served p.rules d (p.walk d r).registry w c := by
    obtain hqueue | hserved | hfalse := hend.served w c hc
    · rw [p.walk_exhausts h] at hqueue
      cases hqueue
    · exact hserved
    · exact hfalse.elim
  have hcarried := hserved _ (Walk.fromWire_of_connection hm hcell hrule
    ⟨connection, hconnection, hreads, hwire, henters⟩ hout happly hvalid hi) hinside
  obtain ⟨c', hc'⟩ := hend.sound.coherent.mem_wires_iff.mp hcarried
  exact Option.isSome_iff_exists.mpr ⟨c', hc'⟩

theorem Registry.history_walk_closed (d : Design) (ops : List Registry.Operation) (p : Pass) :
    (p.walk d (history d ops)).registry.Closed p.rules d ∧
      (history d ops).Leads d (p.declares d (history d ops)) (p.walk d (history d ops)).registry :=
  ⟨p.walk_closed (sound_history d ops), p.declares_leads (sound_history d ops)⟩

end ClockTree
