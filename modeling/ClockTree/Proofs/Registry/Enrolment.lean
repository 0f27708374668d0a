import ClockTree.Clock.Registration
import ClockTree.Proofs.Registry.Coherence
import Mathlib.Data.List.Induction

/-!
# Registering a clock

Each step of a registration has one lemma that says what it makes of the list of clocks and of the
indices. Between the first wire that is taken and the placing of the new clock the registry is not
coherent, so the lemmas about these steps speak about the list that the registration started from.
-/
namespace ClockTree
namespace Registration
variable {α β : Type} {x : Registration α} {f : α → Registration β} {l l' : Ledger} {a : α}

theorem run_bind_of_ok (h : x.run l = .ok a l') : (x >>= f).run l = (f a).run l' := by
  rw [EStateM.run_bind, h]

theorem run_report (n : Diagnostic) (l : Ledger) :
    (report n).run l = .ok () { l with log := l.log ++ [n] } := rfl

theorem run_update {name : String} {step : Registry → Option Registry} {r : Registry}
    (h : step l.registry = some r) :
    (update name step).run l = .ok () { l with registry := r } := by
  simp [update, h, found]

theorem run_forM_drop {name : String} {owners : List String} {r q : Registry}
    {log : List Diagnostic} (h : owners.foldlM Registry.remove r = some q) :
    (forM owners (drop name)).run ⟨r, log⟩ = .ok () ⟨q, log ++ owners.map Notice.dropped⟩ := by
  induction owners generalizing r log with
  | nil =>
    cases h
    simp
  | cons owner owners ih =>
    obtain ⟨r', hremove, hrest⟩ := Option.bind_eq_some_iff.mp h
    have hdrop : (drop name owner).run ⟨r, log⟩ = .ok () ⟨r', log ++ [Notice.dropped owner]⟩ := by
      rw [drop, run_bind_of_ok (run_report _ _), run_update hremove]
    rw [List.forM_cons, run_bind_of_ok hdrop, ih hrest, List.map_cons, List.append_assoc]
    rfl

section
variable {d : Design} {name : String} {emptied : List String} {r : Registry} {log : List Diagnostic}

theorem run_take_free {w : WireKey} (hfree : r.byWire[w]? = none) :
    (take d name emptied w).run ⟨r, log⟩ = .ok emptied ⟨r, log⟩ := by
  simp [take, hfree]

theorem run_take_owned {w : WireKey} {owner : String} {i : Nat} {c : Clock}
    (howner : r.byWire[w]? = some owner) (hi : r.byName[owner]? = some i)
    (hc : r.clocks[i]? = some c) :
    (take d name emptied w).run ⟨r, log⟩ =
      .ok (if (c.wires.filter (· != w)).isEmpty then emptied ++ [owner] else emptied)
        ⟨{ r with clocks := r.clocks.set i { c with wires := c.wires.filter (· != w) } },
          log ++ [Notice.moved ((d.path? w).getD w.describe) owner name]⟩ := by
  rw [take, run_bind_of_ok (EStateM.run_get _)]
  simp only [howner]
  rw [run_bind_of_ok (run_report _ _)]
  simp only [hi, hc, found, pure_bind]
  rw [run_bind_of_ok (EStateM.run_modify _ _), EStateM.run_pure]

theorem run_enroll {c c' : Clock} {released taken placed cleared : Registry}
    {log' : List Diagnostic} (hrelease : r.release c.name = some released)
    (htake : (c.wires.foldlM (take d c.name) []).run ⟨released, log⟩ = .ok emptied ⟨taken, log'⟩)
    (hplace : taken.place c = some placed)
    (hremove : emptied.foldlM Registry.remove placed = some cleared)
    (hnamed : cleared.named? c.name = some c') :
    (enroll d c).run ⟨r, log⟩ = .ok c' ⟨cleared, log' ++ emptied.map Notice.dropped⟩ := by
  rw [enroll, run_bind_of_ok (run_update hrelease), run_bind_of_ok htake,
    run_bind_of_ok (run_update hplace), run_bind_of_ok (run_forM_drop hremove),
    run_bind_of_ok (EStateM.run_get _), hnamed]
  rfl

end
end Registration

namespace Registry

theorem eraseAll_lookup (ws : List WireKey) (m : Std.TreeMap WireKey String) (x : WireKey) :
    (ws.foldl (·.erase ·) m)[x]? = if x ∈ ws then none else m[x]? := by
  induction ws generalizing m with
  | nil => simp
  | cons w ws ih =>
    simp only [List.foldl_cons, ih, Std.TreeMap.getElem?_erase, Std.compare_eq_iff_eq,
      List.mem_cons]
    grind

theorem insertAll_lookup (name : String) (ws : List WireKey) (m : Std.TreeMap WireKey String)
    (x : WireKey) :
    (ws.foldl (·.insert · name) m)[x]? = if x ∈ ws then some name else m[x]? := by
  induction ws generalizing m with
  | nil => simp
  | cons w ws ih =>
    simp only [List.foldl_cons, ih, Std.TreeMap.getElem?_insert, Std.compare_eq_iff_eq,
      List.mem_cons]
    grind

namespace Coherent
variable {r : Registry}

theorem release_eq (h : r.Coherent) (name : String) :
    ∃ m, r.release name = some { r with byWire := m } ∧
      ∀ (w : WireKey) n, m[w]? = some n ↔ n ≠ name ∧ r.byWire[w]? = some n := by
  unfold release
  cases hi : r.byName[name]? with
  | none =>
    refine ⟨r.byWire, rfl, fun w n => ⟨fun hw => ⟨?_, hw⟩, And.right⟩⟩
    intro same
    subst same
    obtain ⟨c, hc, hn, -⟩ := (h.owner w n).mp hw
    obtain ⟨i, hic⟩ := List.getElem?_of_mem hc
    rw [(h.position n i).mpr ⟨c, hic, hn⟩] at hi
    cases hi
  | some i =>
    obtain ⟨c, hc, hn⟩ := (h.position name i).mp hi
    refine ⟨c.wires.foldl (·.erase ·) r.byWire, by simp [hc], fun w n => ?_⟩
    rw [eraseAll_lookup]
    have hmem := List.mem_of_getElem? hc
    by_cases hw : w ∈ c.wires
    · simp only [hw, if_true, reduceCtorEq, false_iff, not_and]
      intro hne hwn
      rw [(h.owner w c.name).mpr ⟨c, hmem, rfl, hw⟩, hn] at hwn
      exact hne (Option.some.inj hwn).symm
    · simp only [hw, if_false]
      refine ⟨fun hwn => ⟨?_, hwn⟩, And.right⟩
      intro same
      subst same
      obtain ⟨b, hb, hbn, hwb⟩ := (h.owner w n).mp hwn
      obtain rfl := h.eq_of_name hb hmem (hbn.trans hn.symm)
      exact hw hwb

end Coherent
end Registry

theorem filter_notMem_of_disjoint {ws ws' : List WireKey} (h : List.Disjoint ws ws') :
    ws.filter (· ∉ ws') = ws :=
  List.filter_eq_self.mpr fun w hw => by simpa using h hw

/-- A clock after the wires `ws` have gone to the clock called `name`. -/
def Clock.after (name : String) (ws : List WireKey) (b : Clock) : Clock :=
  if b.name = name then b else { b with wires := b.wires.filter (· ∉ ws) }

namespace Clock

theorem after_name (name : String) (ws : List WireKey) (b : Clock) :
    (b.after name ws).name = b.name := by
  unfold after
  split <;> rfl

theorem after_wave (name : String) (ws : List WireKey) (b : Clock) :
    (b.after name ws).wave = b.wave := by
  unfold after
  split <;> rfl

theorem after_nil (name : String) (b : Clock) : b.after name [] = b := by
  simp [after]

theorem after_of_disjoint {name : String} {ws : List WireKey} {b : Clock}
    (h : List.Disjoint b.wires ws) : b.after name ws = b := by
  rw [after, filter_notMem_of_disjoint h]
  exact ite_self b

theorem mem_after_wires {name : String} {ws : List WireKey} {b : Clock} {w : WireKey} :
    w ∈ (b.after name ws).wires ↔ w ∈ b.wires ∧ (b.name = name ∨ w ∉ ws) := by
  unfold after
  split <;> simp_all

theorem after_append_of_notMem {name : String} {ws : List WireKey} {b : Clock} {w : WireKey}
    (hw : b.name = name ∨ w ∉ b.wires) : b.after name (ws ++ [w]) = b.after name ws := by
  unfold after
  by_cases hn : b.name = name
  · simp [hn]
  · have hw := hw.resolve_left hn
    simp only [hn, if_false, Clock.mk.injEq, true_and, and_true]
    refine List.filter_congr fun x hx => ?_
    have hne : x ≠ w := by
      intro same
      subst same
      exact hw hx
    simp [hne]

end Clock

namespace Registry

/-- What has come of a registration when wires have been taken: which wires went, from whom, and
who is left without. -/
structure Transfer where
  registry : Registry
  moved : List (WireKey × String)
  emptied : List String

namespace Transfer

def news (t : Transfer) (d : Design) (name : String) : List Diagnostic :=
  t.moved.map fun (w, owner) => Notice.moved ((d.path? w).getD w.describe) owner name

def ledger (t : Transfer) (d : Design) (name : String) (log : List Diagnostic) : Ledger :=
  ⟨t.registry, log ++ t.news d name⟩

end Transfer

/-- Where a transfer stands after the wires `ws` of the new clock have been taken, when it started
from `r` with the index `m`. -/
structure Transfer.Taken (r : Registry) (name : String) (m : Std.TreeMap WireKey String)
    (ws : List WireKey) (t : Transfer) : Prop where
  registry : t.registry = ⟨r.clocks.map (·.after name ws), r.byName, m⟩
  moved : t.moved = ws.filterMap fun w => m[w]?.map (w, ·)
  emptied : ∀ n, n ∈ t.emptied ↔
    ∃ b ∈ r.clocks, b.name = n ∧ n ≠ name ∧ b.wires ≠ [] ∧ b.wires ⊆ ws
  nodup : t.emptied.Nodup

theorem Transfer.taken_nil (r : Registry) (name : String) (m : Std.TreeMap WireKey String) :
    Transfer.Taken r name m [] ⟨{ r with byWire := m }, [], []⟩ where
  registry := by simp [Clock.after_nil]
  moved := rfl
  emptied n := by
    simp only [List.not_mem_nil, List.subset_nil, false_iff]
    intro found
    obtain ⟨b, -, -, -, hne, he⟩ := found
    exact hne he
  nodup := List.nodup_nil

namespace Coherent
variable {r : Registry}

theorem take_free (h : r.Coherent) {name : String} {m : Std.TreeMap WireKey String}
    (hm : ∀ (w : WireKey) n, m[w]? = some n ↔ n ≠ name ∧ r.byWire[w]? = some n)
    {ws : List WireKey} {w : WireKey} (ho : m[w]? = none) {t : Transfer}
    (ht : t.Taken r name m ws) (d : Design) (log : List Diagnostic) :
    (Registration.take d name t.emptied w).run (t.ledger d name log) =
        .ok t.emptied (t.ledger d name log) ∧
      t.Taken r name m (ws ++ [w]) := by
  obtain ⟨hreg, hmoved, hemptied, hnodup⟩ := ht
  have hfree : ∀ b ∈ r.clocks, b.name = name ∨ w ∉ b.wires := by
    intro b hb
    by_contra hn
    rw [not_or, not_not] at hn
    rw [(hm w b.name).mpr ⟨hn.1, (h.owner w b.name).mpr ⟨b, hb, rfl, hn.2⟩⟩] at ho
    cases ho
  have hwire : t.registry.byWire[w]? = none := by rw [hreg, ho]
  refine ⟨Registration.run_take_free hwire, ?_, by simp [hmoved, ho], fun n => ?_, hnodup⟩
  · rw [hreg]
    congr 1
    exact List.map_congr_left fun b hb => (Clock.after_append_of_notMem (hfree b hb)).symm
  · rw [hemptied]
    refine exists_congr fun b => and_congr_right fun hb => and_congr_right fun hbn =>
      and_congr_right fun hn => and_congr_right fun _ => ⟨fun hs => ?_, fun hs x hx => ?_⟩
    · exact List.Subset.trans hs (List.subset_append_left ws [w])
    · have hwb := (hfree b hb).resolve_left (hbn ▸ hn)
      have hne : x ≠ w := by
        intro same
        subst same
        exact hwb hx
      simpa [hne] using hs hx

theorem set_after (h : r.Coherent) {name : String} {ws : List WireKey} {w : WireKey} {i : Nat}
    {c : Clock} (hi : r.clocks[i]? = some c) (hw : w ∈ c.wires) :
    (r.clocks.map (·.after name ws)).set i (c.after name (ws ++ [w])) =
      r.clocks.map (·.after name (ws ++ [w])) := by
  refine List.ext_getElem? fun j => ?_
  rw [List.getElem?_set, List.getElem?_map, List.getElem?_map]
  split
  · rename_i hij
    subst hij
    simp only [hi, Option.map_some, List.length_map, (List.getElem?_eq_some_iff.mp hi).1, if_true]
  · rename_i hij
    cases hj : r.clocks[j]? with
    | none => rfl
    | some b =>
      have hwb : w ∉ b.wires := by
        intro hwb
        obtain rfl := h.eq_of_wire (List.mem_of_getElem? hj) (List.mem_of_getElem? hi) hwb hw
        exact hij (h.position_unique hi hj rfl)
      simp [Clock.after_append_of_notMem (Or.inr hwb)]

theorem emptied_append (h : r.Coherent) {name : String} {ws : List WireKey} {w : WireKey}
    {c : Clock} (hc : c ∈ r.clocks) (hw : w ∈ c.wires) (hne : c.name ≠ name) (n : String) :
    (∃ b ∈ r.clocks, b.name = n ∧ n ≠ name ∧ b.wires ≠ [] ∧ b.wires ⊆ ws ++ [w]) ↔
      (∃ b ∈ r.clocks, b.name = n ∧ n ≠ name ∧ b.wires ≠ [] ∧ b.wires ⊆ ws) ∨
        n = c.name ∧ c.wires ⊆ ws ++ [w] := by
  have hkeep : ∀ b ∈ r.clocks, b ≠ c → b.wires ⊆ ws ++ [w] → b.wires ⊆ ws := by
    intro b hb hbc hs x hx
    have hxw : x ≠ w := by
      intro same
      subst same
      exact hbc (h.eq_of_wire hb hc hx hw)
    simpa [hxw] using hs hx
  constructor
  · intro found
    obtain ⟨b, hb, hbn, hnn, hbne, hs⟩ := found
    by_cases hbc : b = c
    · subst hbc
      exact Or.inr ⟨hbn.symm, hs⟩
    · exact Or.inl ⟨b, hb, hbn, hnn, hbne, hkeep b hb hbc hs⟩
  · intro found
    rcases found with ⟨b, hb, hbn, hnn, hbne, hs⟩ | ⟨rfl, hs⟩
    · exact ⟨b, hb, hbn, hnn, hbne, List.Subset.trans hs (List.subset_append_left ws [w])⟩
    · exact ⟨c, hc, rfl, hne, List.ne_nil_of_mem hw, hs⟩

theorem take_owned (h : r.Coherent) {name : String} {m : Std.TreeMap WireKey String}
    (hm : ∀ (w : WireKey) n, m[w]? = some n ↔ n ≠ name ∧ r.byWire[w]? = some n)
    {ws : List WireKey} {w : WireKey} (hw : w ∉ ws) {owner : String} (ho : m[w]? = some owner)
    {t : Transfer} (ht : t.Taken r name m ws) (d : Design) (log : List Diagnostic) :
    ∃ t' : Transfer, (Registration.take d name t.emptied w).run (t.ledger d name log) =
        .ok t'.emptied (t'.ledger d name log) ∧
      t'.Taken r name m (ws ++ [w]) := by
  obtain ⟨hreg, hmoved, hemptied, hnodup⟩ := ht
  obtain ⟨hne, hown⟩ := (hm w owner).mp ho
  obtain ⟨c, hc, rfl, hwc⟩ := (h.owner w owner).mp hown
  obtain ⟨i, hi⟩ := List.getElem?_of_mem hc
  have hpos := (h.position c.name i).mpr ⟨c, hi, rfl⟩
  have hrest : (c.after name ws).wires.filter (· != w) = (c.after name (ws ++ [w])).wires := by
    simp only [Clock.after, hne, if_false, List.filter_filter]
    refine List.filter_congr fun x _ => ?_
    by_cases hx : x = w <;> simp [hx]
  have hempty : (c.after name (ws ++ [w])).wires.isEmpty ↔ c.wires ⊆ ws ++ [w] := by
    simp [Clock.after, hne, List.filter_eq_nil_iff, List.subset_def, or_iff_not_imp_left]
  have hnew : c.name ∉ t.emptied := by
    rw [hemptied]
    intro found
    obtain ⟨b, hb, hbn, -, -, hs⟩ := found
    obtain rfl := h.eq_of_name hb hc hbn
    exact hw (hs hwc)
  have hwhole : { c.after name ws with wires := (c.after name (ws ++ [w])).wires } =
      c.after name (ws ++ [w]) := by
    simp only [Clock.after, hne, if_false]
  let t' : Transfer := {
    registry := ⟨r.clocks.map (·.after name (ws ++ [w])), r.byName, m⟩
    moved := t.moved ++ [(w, c.name)]
    emptied := if (c.after name (ws ++ [w])).wires.isEmpty then t.emptied ++ [c.name]
      else t.emptied }
  have hafter : (r.clocks.map (·.after name ws))[i]? = some (c.after name ws) := by
    rw [List.getElem?_map, hi, Option.map_some]
  have htake : (Registration.take d name t.emptied w).run (t.ledger d name log) =
      .ok t'.emptied (t'.ledger d name log) := by
    rw [Transfer.ledger, hreg, Registration.run_take_owned
      (r := ⟨r.clocks.map (·.after name ws), r.byName, m⟩) ho hpos hafter, hrest, hwhole,
      h.set_after hi hwc]
    simp [t', Transfer.ledger, Transfer.news]
  refine ⟨t', htake, rfl, by simp [t', hmoved, ho], fun n => ?_, ?_⟩ <;> dsimp only [t']
  · rw [h.emptied_append hc hwc hne, ← hemptied, ← hempty]
    split <;> simp_all
  · split
    · refine List.nodup_append.mpr ⟨hnodup, List.nodup_singleton c.name, ?_⟩
      intro a ha b hb same
      subst same
      exact hnew (List.mem_singleton.mp hb ▸ ha)
    · exact hnodup

theorem take_taken (h : r.Coherent) {name : String} {m : Std.TreeMap WireKey String}
    (hm : ∀ (w : WireKey) n, m[w]? = some n ↔ n ≠ name ∧ r.byWire[w]? = some n)
    {ws : List WireKey} {w : WireKey} (hw : w ∉ ws) {t : Transfer}
    (ht : t.Taken r name m ws) (d : Design) (log : List Diagnostic) :
    ∃ t' : Transfer, (Registration.take d name t.emptied w).run (t.ledger d name log) =
        .ok t'.emptied (t'.ledger d name log) ∧
      t'.Taken r name m (ws ++ [w]) := by
  cases ho : m[w]? with
  | none => exact ⟨t, h.take_free hm ho ht d log⟩
  | some owner => exact h.take_owned hm hw ho ht d log

theorem takeAll_taken (h : r.Coherent) {name : String} {m : Std.TreeMap WireKey String}
    (hm : ∀ (w : WireKey) n, m[w]? = some n ↔ n ≠ name ∧ r.byWire[w]? = some n)
    {ws : List WireKey} (hws : ws.Nodup) (d : Design) (log : List Diagnostic) :
    ∃ t : Transfer, (ws.foldlM (Registration.take d name) []).run ⟨{ r with byWire := m }, log⟩ =
        .ok t.emptied (t.ledger d name log) ∧
      t.Taken r name m ws := by
  induction ws using List.reverseRecOn with
  | nil => exact ⟨_, by simp [Transfer.ledger, Transfer.news], Transfer.taken_nil r name m⟩
  | append_singleton ws w ih =>
    obtain ⟨hws, -, hw⟩ := List.nodup_append.mp hws
    obtain ⟨t, ht, htaken⟩ := ih hws
    obtain ⟨t', ht', htaken'⟩ := h.take_taken hm
      (fun hmem => hw w hmem w (List.mem_singleton_self w) rfl) htaken d log
    refine ⟨t', ?_, htaken'⟩
    rw [List.foldlM_append, Registration.run_bind_of_ok ht, List.foldlM_cons,
      Registration.run_bind_of_ok ht', List.foldlM_nil, EStateM.run_pure]

end Coherent
end Registry

/-- What a clock becomes when `c` is put among the clocks: the one with its name is replaced, and
the others lose the wires of `c`. -/
def Clock.cede (c b : Clock) : Clock := if b.name = c.name then c else b.after c.name c.wires

theorem Clock.cede_name (c b : Clock) : (c.cede b).name = b.name := by
  unfold cede
  split
  · rename_i h
    exact h.symm
  · exact b.after_name c.name c.wires

theorem Clock.cede_of_disjoint {c b : Clock} (hname : b.name ≠ c.name)
    (hwires : List.Disjoint b.wires c.wires) : c.cede b = b := by
  rw [cede, if_neg hname, after_of_disjoint hwires]

namespace Registry

/-- The clocks when `c` is in its place and those it left without wires are not yet removed. -/
def seated (c : Clock) (cs : List Clock) : List Clock :=
  cs.map c.cede ++ if cs.any (·.name == c.name) then [] else [c]

theorem mem_seated {c : Clock} {cs : List Clock} {x : Clock} :
    x ∈ seated c cs ↔ x = c ∨ ∃ b ∈ cs, b.name ≠ c.name ∧ b.after c.name c.wires = x := by
  simp only [seated, List.mem_append, List.mem_map]
  constructor
  · intro found
    rcases found with ⟨b, hb, rfl⟩ | hx
    · by_cases hn : b.name = c.name
      · exact Or.inl (by simp [Clock.cede, hn])
      · exact Or.inr ⟨b, hb, hn, by simp [Clock.cede, hn]⟩
    · left
      split at hx <;> simp_all
  · intro found
    rcases found with rfl | ⟨b, hb, hn, rfl⟩
    · by_cases hany : cs.any (·.name == x.name)
      · obtain ⟨b, hb, hn⟩ := List.any_eq_true.mp hany
        exact Or.inl ⟨b, hb, by simp [Clock.cede, beq_iff_eq.mp hn]⟩
      · exact Or.inr (by simp [hany])
    · exact Or.inl ⟨b, hb, by simp [Clock.cede, hn]⟩

namespace Coherent
variable {r : Registry}

theorem seated_owner (h : r.Coherent) {c : Clock} {m : Std.TreeMap WireKey String}
    (hm : ∀ (w : WireKey) n, m[w]? = some n ↔ n ≠ c.name ∧ r.byWire[w]? = some n) (w : WireKey)
    (n : String) : (c.wires.foldl (·.insert · c.name) m)[w]? = some n ↔
      ∃ b ∈ seated c r.clocks, b.name = n ∧ w ∈ b.wires := by
  rw [insertAll_lookup]
  simp only [mem_seated]
  by_cases hw : w ∈ c.wires
  · simp only [hw, if_true, Option.some.injEq]
    constructor
    · intro same
      subst same
      exact ⟨c, Or.inl rfl, rfl, hw⟩
    · intro found
      obtain ⟨b, rfl | ⟨a, ha, hn, rfl⟩, hbn, hwb⟩ := found
      · exact hbn
      · exact absurd hw ((Clock.mem_after_wires.mp hwb).2.resolve_left hn)
  · simp only [hw, if_false, hm, h.owner]
    constructor
    · intro found
      obtain ⟨hn, b, hb, hbn, hwb⟩ := found
      exact ⟨_, Or.inr ⟨b, hb, hbn ▸ hn, rfl⟩, by rw [Clock.after_name, hbn],
        Clock.mem_after_wires.mpr ⟨hwb, Or.inr hw⟩⟩
    · intro found
      obtain ⟨b, rfl | ⟨a, ha, hn, rfl⟩, hbn, hwb⟩ := found
      · exact absurd hwb hw
      · rw [Clock.after_name] at hbn
        exact ⟨hbn ▸ hn, a, ha, hbn, (Clock.mem_after_wires.mp hwb).1⟩

def Seats (r : Registry) (c : Clock) (m : Std.TreeMap WireKey String) : Prop :=
  ∃ byName, place ⟨r.clocks.map (·.after c.name c.wires), r.byName, m⟩ c =
      some ⟨seated c r.clocks, byName, c.wires.foldl (·.insert · c.name) m⟩ ∧
    ∀ (n : String) i, byName[n]? = some i ↔
      ∃ b : Clock, (seated c r.clocks)[i]? = some b ∧ b.name = n

theorem seats_new (h : r.Coherent) {c : Clock} (m : Std.TreeMap WireKey String)
    (hi : r.byName[c.name]? = none) : Seats r c m := by
  have hfresh := h.named?_eq_none_iff.mp
    (show r.named? c.name = none by simp [Registry.named?, hi])
  have hseated : seated c r.clocks = r.clocks.map (·.after c.name c.wires) ++ [c] := by
    have hany : ¬ r.clocks.any (·.name == c.name) := by
      simpa [List.any_eq_true] using hfresh
    rw [seated, if_neg hany]
    congr 1
    exact List.map_congr_left fun b hb => by simp [Clock.cede, hfresh b hb]
  refine ⟨r.byName.insert c.name r.clocks.length, by simp [place, hi, hseated], fun n i => ?_⟩
  rw [hseated, Std.TreeMap.getElem?_insert, List.getElem?_append, List.length_map,
    List.getElem?_map]
  by_cases hn : c.name = n
  · subst hn
    simp only [Std.compare_self, if_true, Option.some.injEq]
    constructor
    · intro same
      subst same
      exact ⟨c, by simp, rfl⟩
    · intro found
      obtain ⟨b, hb, hbn⟩ := found
      split at hb
      · obtain ⟨a, ha, rfl⟩ := Option.map_eq_some_iff.mp hb
        rw [Clock.after_name] at hbn
        exact absurd hbn (hfresh a (List.mem_of_getElem? ha))
      · have hlast := (List.getElem?_eq_some_iff.mp hb).1
        simp only [List.length_singleton] at hlast
        omega
  · simp only [Std.compare_eq_iff_eq, hn, if_false, h.position]
    constructor
    · intro found
      obtain ⟨b, hb, hbn⟩ := found
      refine ⟨b.after c.name c.wires, ?_, by rw [Clock.after_name, hbn]⟩
      simp only [(List.getElem?_eq_some_iff.mp hb).1, if_true, hb, Option.map_some]
    · intro found
      obtain ⟨b, hb, hbn⟩ := found
      split at hb
      · obtain ⟨a, ha, rfl⟩ := Option.map_eq_some_iff.mp hb
        exact ⟨a, ha, by rwa [Clock.after_name] at hbn⟩
      · rw [List.mem_singleton.mp (List.mem_of_getElem? hb)] at hbn
        exact absurd hbn hn

theorem seats_named (h : r.Coherent) {c : Clock} (m : Std.TreeMap WireKey String) {i : Nat}
    (hi : r.byName[c.name]? = some i) : Seats r c m := by
  obtain ⟨b, hb, hbn⟩ := (h.position c.name i).mp hi
  have hlength := (List.getElem?_eq_some_iff.mp hb).1
  have hany : r.clocks.any (·.name == c.name) :=
    List.any_eq_true.mpr ⟨b, List.mem_of_getElem? hb, by simp [hbn]⟩
  have hseated : seated c r.clocks = r.clocks.map c.cede := by simp [seated, hany]
  have hset : (r.clocks.map (·.after c.name c.wires)).set i c = r.clocks.map c.cede := by
    refine List.ext_getElem? fun j => ?_
    rw [List.getElem?_set, List.getElem?_map, List.getElem?_map]
    cases hj : r.clocks[j]? with
    | none =>
      have hij : i ≠ j := by
        intro same
        subst same
        rw [hb] at hj
        cases hj
      simp [hij]
    | some a =>
      by_cases hij : i = j
      · subst hij
        obtain rfl : b = a := Option.some.inj (hb.symm.trans hj)
        simp [hlength, Clock.cede, hbn]
      · have hn : a.name ≠ c.name := fun hn => hij (h.position_unique hb hj (hbn.trans hn.symm))
        simp [hij, Clock.cede, hn]
  refine ⟨r.byName, by simp [place, hi, hlength, hset, hseated], fun n j => ?_⟩
  rw [h.position, hseated]
  simp only [List.getElem?_map, Option.map_eq_some_iff]
  constructor
  · intro found
    obtain ⟨a, ha, han⟩ := found
    exact ⟨_, ⟨a, ha, rfl⟩, by rw [Clock.cede_name, han]⟩
  · intro found
    obtain ⟨_, ⟨a, ha, rfl⟩, han⟩ := found
    exact ⟨a, ha, by rwa [Clock.cede_name] at han⟩

theorem place_coherent (h : r.Coherent) {c : Clock} (hc : c.wires.Nodup)
    {m : Std.TreeMap WireKey String}
    (hm : ∀ (w : WireKey) n, m[w]? = some n ↔ n ≠ c.name ∧ r.byWire[w]? = some n) :
    ∃ q, place ⟨r.clocks.map (·.after c.name c.wires), r.byName, m⟩ c = some q ∧
      q.clocks = seated c r.clocks ∧ q.Coherent := by
  have hseats : Seats r c m := by
    cases hi : r.byName[c.name]? with
    | none => exact h.seats_new m hi
    | some i => exact h.seats_named m hi
  obtain ⟨byName, hplace, hposition⟩ := hseats
  refine ⟨_, hplace, rfl, hposition, h.seated_owner hm, fun b hb => ?_⟩
  obtain rfl | ⟨a, ha, hn, rfl⟩ := mem_seated.mp hb
  · exact hc
  · simpa [Clock.after, hn] using (h.nodup a ha).filter _

theorem eraseIdx_eq_filter (h : r.Coherent) {i : Nat} {b : Clock} (hb : r.clocks[i]? = some b) :
    r.clocks.eraseIdx i = r.clocks.filter (·.name != b.name) := by
  obtain ⟨hi, hget⟩ := List.getElem?_eq_some_iff.mp hb
  have hother : ∀ (j : Nat) (a : Clock), r.clocks[j]? = some a → j ≠ i → a.name != b.name := by
    intro j a ha hij
    simp only [bne_iff_ne]
    exact fun hn => hij (h.position_unique ha hb hn)
  have hfront : (r.clocks.take i).filter (·.name != b.name) = r.clocks.take i := by
    refine List.filter_eq_self.mpr fun a ha => ?_
    obtain ⟨j, hj⟩ := List.getElem?_of_mem ha
    rw [List.getElem?_take] at hj
    split at hj
    · exact hother j a hj (by omega)
    · cases hj
  have hback : (r.clocks.drop (i + 1)).filter (·.name != b.name) = r.clocks.drop (i + 1) := by
    refine List.filter_eq_self.mpr fun a ha => ?_
    obtain ⟨j, hj⟩ := List.getElem?_of_mem ha
    rw [List.getElem?_drop] at hj
    exact hother (i + 1 + j) a hj (by omega)
  have hsplit : r.clocks = r.clocks.take i ++ b :: r.clocks.drop (i + 1) := by
    rw [← hget, ← List.drop_eq_getElem_cons hi, List.take_append_drop]
  rw [List.eraseIdx_eq_take_drop_succ]
  conv_rhs => rw [hsplit]
  simp [hfront, hback]

theorem remove_coherent (h : r.Coherent) {b : Clock} (hb : b ∈ r.clocks) (hw : b.wires = []) :
    ∃ q, r.remove b.name = some q ∧ q.clocks = r.clocks.filter (·.name != b.name) ∧
      q.Coherent := by
  obtain ⟨i, hi⟩ := List.getElem?_of_mem hb
  have hpos := (h.position b.name i).mpr ⟨b, hi, rfl⟩
  have herase := h.eraseIdx_eq_filter hi
  refine ⟨⟨r.clocks.eraseIdx i, (r.byName.erase b.name).map fun _ j => if i < j then j - 1 else j,
    r.byWire⟩, by simp [remove, hpos, hi, hw], herase, fun n j => ?_, fun w n => ?_, ?_⟩
  · rw [Std.TreeMap.getElem?_map, Std.TreeMap.getElem?_erase, List.getElem?_eraseIdx,
      Option.map_eq_some_iff]
    constructor
    · intro found
      obtain ⟨k, hk, rfl⟩ := found
      split at hk
      · cases hk
      · rename_i hne
        obtain ⟨a, ha, han⟩ := (h.position n k).mp hk
        have hki : k ≠ i := by
          intro same
          subst same
          obtain rfl : a = b := Option.some.inj (ha.symm.trans hi)
          exact hne (by simp [han])
        refine ⟨a, ?_, han⟩
        by_cases hlt : i < k
        · have hk1 : k - 1 + 1 = k := by omega
          have hk2 : ¬ k - 1 < i := by omega
          simp [hlt, hk2, hk1, ha]
        · have hk1 : k < i := by omega
          simp [hlt, hk1, ha]
    · intro found
      obtain ⟨a, ha, han⟩ := found
      have hne : ∀ k, r.clocks[k]? = some a → k ≠ i → compare b.name n ≠ .eq := by
        intro k hk hki hc
        rw [Std.compare_eq_iff_eq] at hc
        exact hki (h.position_unique hk hi (han.trans hc.symm))
      split at ha
      · exact ⟨j, by rw [if_neg (hne j ha (by omega)), h.position]; exact ⟨a, ha, han⟩,
          by rw [if_neg (by omega)]⟩
      · exact ⟨j + 1, by rw [if_neg (hne (j + 1) ha (by omega)), h.position]; exact ⟨a, ha, han⟩,
          by rw [if_pos (by omega), Nat.add_sub_cancel]⟩
  · rw [h.owner, herase]
    refine exists_congr fun a => ?_
    simp only [List.mem_filter, bne_iff_ne]
    refine ⟨fun ⟨ha, han, hwa⟩ => ⟨⟨ha, fun hn => ?_⟩, han, hwa⟩,
      fun ⟨⟨ha, _⟩, hrest⟩ => ⟨ha, hrest⟩⟩
    rw [h.eq_of_name ha hb hn, hw] at hwa
    cases hwa
  · intro a ha
    exact h.nodup a (List.mem_of_mem_eraseIdx ha)

theorem removeAll_coherent {names : List String} (h : r.Coherent) (hnodup : names.Nodup)
    (hempty : ∀ n ∈ names, ∃ b ∈ r.clocks, b.name = n ∧ b.wires = []) :
    ∃ q, names.foldlM remove r = some q ∧ q.clocks = r.clocks.filter (·.name ∉ names) ∧
      q.Coherent := by
  induction names generalizing r with
  | nil => exact ⟨r, rfl, by simp, h⟩
  | cons n names ih =>
    obtain ⟨hn, hrest⟩ := List.nodup_cons.mp hnodup
    obtain ⟨b, hb, rfl, hw⟩ := hempty n List.mem_cons_self
    obtain ⟨q, hq, hclocks, hcoherent⟩ := h.remove_coherent hb hw
    obtain ⟨q', hq', hclocks', hcoherent'⟩ := ih hcoherent hrest (by
      intro n' hn'
      obtain ⟨b', hb', rfl, hw'⟩ := hempty n' (List.mem_cons_of_mem _ hn')
      refine ⟨b', ?_, rfl, hw'⟩
      rw [hclocks, List.mem_filter, bne_iff_ne]
      exact ⟨hb', fun he => hn (he ▸ hn')⟩)
    refine ⟨q', by simp [hq, hq'], ?_, hcoherent'⟩
    rw [hclocks', hclocks, List.filter_filter]
    refine List.filter_congr fun a _ => ?_
    by_cases hn : a.name = b.name <;> simp [hn]

end Coherent

structure Transfer.Completes (r : Registry) (c : Clock) (t : Transfer) : Prop where
  coherent : t.registry.Coherent
  clocks : t.registry.clocks = (seated c r.clocks).filter (·.wires ≠ [])
  moved : t.moved = c.wires.filterMap fun w =>
    ((r.carrier? w).filter (·.name != c.name)).map fun b => (w, b.name)
  emptied : ∀ n, n ∈ t.emptied ↔ ∃ b ∈ r.clocks, b.name = n ∧ n ≠ c.name ∧ b.wires ⊆ c.wires
  nodup : t.emptied.Nodup

theorem Transfer.Completes.mem_clocks {r : Registry} {c : Clock} {t : Transfer}
    (h : t.Completes r c) {x : Clock} : x ∈ t.registry.clocks ↔
      (x = c ∨ ∃ b ∈ r.clocks, b.name ≠ c.name ∧ b.after c.name c.wires = x) ∧ x.wires ≠ [] := by
  rw [h.clocks, List.mem_filter, mem_seated, decide_eq_true_eq]

theorem Transfer.Completes.mem_new {r : Registry} {c : Clock} {t : Transfer}
    (h : t.Completes r c) (hc : c.wires ≠ []) : c ∈ t.registry.clocks :=
  h.mem_clocks.mpr ⟨Or.inl rfl, hc⟩

theorem Transfer.Completes.mem_of_disjoint {r : Registry} {c : Clock} {t : Transfer}
    (h : t.Completes r c) {b : Clock} (hb : b ∈ r.clocks) (hname : b.name ≠ c.name)
    (hwires : List.Disjoint b.wires c.wires) (hne : b.wires ≠ []) : b ∈ t.registry.clocks :=
  h.mem_clocks.mpr ⟨Or.inr ⟨b, hb, hname, Clock.after_of_disjoint hwires⟩, hne⟩

namespace Coherent
variable {r : Registry}

theorem released_lookup (h : r.Coherent) {name : String} {m : Std.TreeMap WireKey String}
    (hm : ∀ (w : WireKey) n, m[w]? = some n ↔ n ≠ name ∧ r.byWire[w]? = some n) (w : WireKey) :
    m[w]? = ((r.carrier? w).filter (·.name != name)).map (·.name) := by
  refine Option.ext fun n => ?_
  rw [hm, h.owner]
  simp only [Option.map_eq_some_iff, Option.filter_eq_some_iff, h.carrier?_eq_some_iff, bne_iff_ne]
  constructor
  · intro found
    obtain ⟨hn, b, hb, rfl, hw⟩ := found
    exact ⟨b, ⟨⟨hb, hw⟩, hn⟩, rfl⟩
  · intro found
    obtain ⟨b, ⟨⟨hb, hw⟩, hn⟩, rfl⟩ := found
    exact ⟨hn, b, hb, rfl, hw⟩

/-- The emptied clocks are those that are left without wires once `c` is seated. -/
theorem mem_emptied (h : r.Coherent) (hwires : ∀ b ∈ r.clocks, b.wires ≠ []) {c : Clock}
    {m : Std.TreeMap WireKey String} {t : Transfer} (ht : t.Taken r c.name m c.wires) {b : Clock}
    (hb : b ∈ r.clocks) (hn : b.name ≠ c.name) :
    b.name ∈ t.emptied ↔ (b.after c.name c.wires).wires = [] := by
  rw [ht.emptied, List.eq_nil_iff_forall_not_mem]
  simp only [Clock.mem_after_wires, hn, false_or, not_and, not_not]
  constructor
  · intro found
    obtain ⟨a, ha, han, -, -, hs⟩ := found
    obtain rfl := h.eq_of_name ha hb han
    exact hs
  · exact fun hs => ⟨b, hb, rfl, hn, hwires b hb, hs⟩

theorem enroll_completes (h : r.Coherent) (hwires : ∀ b ∈ r.clocks, b.wires ≠ []) {c : Clock}
    (hc : c.wires.Nodup) (hne : c.wires ≠ []) (d : Design) (log : List Diagnostic) :
    ∃ t : Transfer, (Registration.enroll d c).run ⟨r, log⟩ =
        .ok c ⟨t.registry, log ++ t.news d c.name ++ t.emptied.map Notice.dropped⟩ ∧
      t.Completes r c := by
  obtain ⟨m, hrelease, hm⟩ := h.release_eq c.name
  obtain ⟨t, ht, htaken⟩ := h.takeAll_taken hm hc d log
  obtain ⟨q, hq, hclocks, hcoherent⟩ := h.place_coherent hc hm
  have hname : c.name ∉ t.emptied := by
    intro hn
    obtain ⟨-, -, -, hself, -⟩ := (htaken.emptied c.name).mp hn
    exact hself rfl
  obtain ⟨q', hq', hclocks', hcoherent'⟩ := hcoherent.removeAll_coherent htaken.nodup (by
    intro n hn
    obtain ⟨b, hb, rfl, hself, -⟩ := (htaken.emptied n).mp hn
    have hempty := (h.mem_emptied hwires htaken hb hself).mp hn
    refine ⟨b.after c.name c.wires, ?_, b.after_name c.name c.wires, hempty⟩
    rw [hclocks]
    exact mem_seated.mpr (Or.inr ⟨b, hb, hself, rfl⟩))
  have hkept : q'.clocks = (seated c r.clocks).filter (·.wires ≠ []) := by
    rw [hclocks', hclocks]
    refine List.filter_congr fun x hx => ?_
    obtain rfl | ⟨b, hb, hn, rfl⟩ := mem_seated.mp hx
    · simp [hname, hne]
    · simp [Clock.after_name, h.mem_emptied hwires htaken hb hn]
  have hnamed : q'.named? c.name = some c := by
    rw [hcoherent'.named?_eq_some_iff, hkept, List.mem_filter]
    exact ⟨⟨mem_seated.mpr (Or.inl rfl), by simp [hne]⟩, rfl⟩
  have henroll := Registration.run_enroll hrelease ht (htaken.registry ▸ hq) hq' hnamed
  refine ⟨⟨q', t.moved, t.emptied⟩, henroll, hcoherent', hkept, ?_, fun n => ?_, htaken.nodup⟩
  · rw [htaken.moved]
    refine List.filterMap_congr fun w _ => ?_
    rw [h.released_lookup hm, Option.map_map]
    rfl
  · rw [htaken.emptied]
    refine exists_congr fun b => and_congr_right fun hb => and_congr_right fun _ =>
      and_congr_right fun _ => ?_
    exact ⟨And.right, fun hs => ⟨hwires b hb, hs⟩⟩

end Coherent
end Registry
end ClockTree
