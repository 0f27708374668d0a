import ClockTree.Clock.Registry
import Mathlib.Data.List.Nodup

/-!
# The indices of the registry

`Coherent` says that both indices agree with the list of clocks. Look-ups in a coherent registry are
membership in the list.
-/
namespace ClockTree

namespace Registry

/-- The indices agree with the list of clocks. Two clocks of one name, or on one wire, would need
two entries of an index under one key, so there are none. -/
structure Coherent (r : Registry) : Prop where
  position : ∀ name i, r.byName[name]? = some i ↔
    ∃ c : Clock, r.clocks[i]? = some c ∧ c.name = name
  owner : ∀ w name, r.byWire[w]? = some name ↔ ∃ c ∈ r.clocks, c.name = name ∧ w ∈ c.wires
  nodup : ∀ c ∈ r.clocks, c.wires.Nodup

theorem coherent_empty : Coherent {} := by
  constructor <;> simp

theorem length_le_of_names (r : Registry) {l : List String} (hl : l.Nodup)
    (hnames : ∀ name ∈ l, ∃ c ∈ r.clocks, c.name = name) : l.length ≤ r.clocks.length := by
  have hsubset : l ⊆ r.clocks.map (·.name) := fun name hname => List.mem_map.mpr (hnames name hname)
  simpa only [List.length_map] using hl.length_le_of_subset hsubset

namespace Coherent
variable {r : Registry}

theorem position_unique (h : r.Coherent) {i j : Nat} {a b : Clock} (ha : r.clocks[i]? = some a)
    (hb : r.clocks[j]? = some b) (hn : a.name = b.name) : i = j := by
  have hi := (h.position b.name i).mpr ⟨a, ha, hn⟩
  have hj := (h.position b.name j).mpr ⟨b, hb, rfl⟩
  rw [hi] at hj
  exact Option.some.inj hj

theorem eq_of_name (h : r.Coherent) {a b : Clock} (ha : a ∈ r.clocks) (hb : b ∈ r.clocks)
    (hn : a.name = b.name) : a = b := by
  obtain ⟨i, hi⟩ := List.getElem?_of_mem ha
  obtain ⟨j, hj⟩ := List.getElem?_of_mem hb
  obtain rfl := h.position_unique hi hj hn
  rw [hi] at hj
  exact Option.some.inj hj

theorem eq_of_wire (h : r.Coherent) {a b : Clock} (ha : a ∈ r.clocks) (hb : b ∈ r.clocks)
    {w : WireKey} (hwa : w ∈ a.wires) (hwb : w ∈ b.wires) : a = b := by
  have hoa := (h.owner w a.name).mpr ⟨a, ha, rfl, hwa⟩
  have hob := (h.owner w b.name).mpr ⟨b, hb, rfl, hwb⟩
  rw [hoa] at hob
  exact h.eq_of_name ha hb (Option.some.inj hob)

theorem names_nodup (h : r.Coherent) : (r.clocks.map (·.name)).Nodup := by
  rw [List.nodup_iff_getElem?_ne_getElem?]
  intro i j hij hj
  rw [List.length_map] at hj
  simp only [List.getElem?_map, List.getElem?_eq_getElem hj,
    List.getElem?_eq_getElem (Nat.lt_trans hij hj), Option.map_some, ne_eq, Option.some.injEq]
  intro hn
  have hsame := h.position_unique (List.getElem?_eq_getElem _) (List.getElem?_eq_getElem _) hn
  exact Nat.ne_of_lt hij hsame

theorem wires_disjoint (h : r.Coherent) :
    r.clocks.Pairwise fun a b => List.Disjoint a.wires b.wires := by
  have hp := List.pairwise_map.mp h.names_nodup
  refine hp.imp_of_mem fun ha hb hn w hwa hwb => hn ?_
  rw [h.eq_of_wire ha hb hwa hwb]

theorem named?_eq_some_iff (h : r.Coherent) {name : String} {c : Clock} :
    r.named? name = some c ↔ c ∈ r.clocks ∧ c.name = name := by
  constructor
  · intro hc
    obtain ⟨i, hi, hc⟩ := Option.bind_eq_some_iff.mp hc
    obtain ⟨b, hb, hn⟩ := (h.position name i).mp hi
    obtain rfl : b = c := Option.some.inj (hb.symm.trans hc)
    exact ⟨List.mem_of_getElem? hc, hn⟩
  · intro found
    obtain ⟨hc, hn⟩ := found
    obtain ⟨i, hi⟩ := List.getElem?_of_mem hc
    exact Option.bind_eq_some_iff.mpr ⟨i, (h.position name i).mpr ⟨c, hi, hn⟩, hi⟩

theorem named?_eq_none_iff (h : r.Coherent) {name : String} :
    r.named? name = none ↔ ∀ c ∈ r.clocks, c.name ≠ name := by
  rw [Option.eq_none_iff_forall_ne_some]
  exact ⟨fun hn c hc hcn => hn c (h.named?_eq_some_iff.mpr ⟨hc, hcn⟩),
    fun hn c hc => hn c (h.named?_eq_some_iff.mp hc).1 (h.named?_eq_some_iff.mp hc).2⟩

theorem carrier?_eq_some_iff (h : r.Coherent) {w : WireKey} {c : Clock} :
    r.carrier? w = some c ↔ c ∈ r.clocks ∧ w ∈ c.wires := by
  constructor
  · intro hc
    obtain ⟨name, hname, hc⟩ := Option.bind_eq_some_iff.mp hc
    obtain ⟨b, hb, hn, hw⟩ := (h.owner w name).mp hname
    obtain ⟨hc, hcn⟩ := h.named?_eq_some_iff.mp hc
    obtain rfl := h.eq_of_name hb hc (hn.trans hcn.symm)
    exact ⟨hb, hw⟩
  · intro found
    obtain ⟨hc, hw⟩ := found
    exact Option.bind_eq_some_iff.mpr
      ⟨c.name, (h.owner w c.name).mpr ⟨c, hc, rfl, hw⟩, h.named?_eq_some_iff.mpr ⟨hc, rfl⟩⟩

theorem carrier?_eq_none_iff (h : r.Coherent) {w : WireKey} :
    r.carrier? w = none ↔ ∀ c ∈ r.clocks, w ∉ c.wires := by
  rw [Option.eq_none_iff_forall_ne_some]
  exact ⟨fun hn c hc hw => hn c (h.carrier?_eq_some_iff.mpr ⟨hc, hw⟩),
    fun hn c hc => hn c (h.carrier?_eq_some_iff.mp hc).1 (h.carrier?_eq_some_iff.mp hc).2⟩

theorem mem_wires_iff (h : r.Coherent) {w : WireKey} :
    w ∈ r.wires ↔ ∃ c, r.carrier? w = some c := by
  simp [Registry.wires, h.carrier?_eq_some_iff]

end Coherent
end Registry
end ClockTree
