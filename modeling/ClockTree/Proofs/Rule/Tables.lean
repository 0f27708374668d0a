import ClockTree.Proofs.Rule.Division
import ClockTree.Rule.Set

/-!
# Tables of rules

A rule that is put into a table replaces the one for its kind of cell and leaves the others. The
built-in rules for buffers pass clocks on as they are, and each built-in divider has a number to
divide by.
-/
namespace ClockTree

theorem Rule.transform_uniform {kind : String} {inputs outputs : List String} {t : Transform}
    {o : Outlet} (ho : o ∈ (Rule.uniform kind inputs outputs t).outputs) : o.transform = t := by
  obtain ⟨port, -, rfl⟩ := List.mem_map.mp ho
  rfl

namespace RuleSet

theorem mem_insert {rules : RuleSet} {r s : Rule} (h : s ∈ rules.insert r) : s = r ∨ s ∈ rules := by
  induction rules with
  | nil => exact Or.inl (List.mem_singleton.mp h)
  | cons first rest ih =>
    rw [RuleSet.insert] at h
    split at h
    · exact (List.mem_cons.mp h).imp_right (List.mem_cons_of_mem _)
    · obtain rfl | h := List.mem_cons.mp h
      · exact Or.inr List.mem_cons_self
      · exact (ih h).imp_right (List.mem_cons_of_mem _)

theorem mem_insert_self (rules : RuleSet) (r : Rule) : r ∈ rules.insert r := by
  induction rules with
  | nil => exact List.mem_singleton_self r
  | cons first rest ih =>
    rw [RuleSet.insert]
    split
    · exact List.mem_cons_self
    · exact List.mem_cons_of_mem _ ih

theorem mem_foldl_insert {rules : List Rule} {table : RuleSet} {s : Rule}
    (h : s ∈ rules.foldl insert table) : s ∈ rules ∨ s ∈ table := by
  induction rules generalizing table with
  | nil => exact Or.inr h
  | cons r rules ih =>
    obtain hs | hs := ih h
    · exact Or.inl (List.mem_cons_of_mem _ hs)
    · obtain rfl | hs := mem_insert hs
      · exact Or.inl List.mem_cons_self
      · exact Or.inr hs

def Transparent (rules : RuleSet) : Prop :=
  ∀ rule ∈ rules, ∀ out ∈ rule.outputs, out.transform = .transparent

theorem buffers_transparent : buffers.Transparent := by
  intro rule hrule out hout
  obtain hrule | hrule := List.mem_append.mp hrule
  · obtain ⟨kind, -, rfl⟩ := List.mem_map.mp hrule
    exact Rule.transform_uniform hout
  · simp only [List.mem_cons, List.not_mem_nil, or_false] at hrule
    obtain rfl | rfl | rfl | rfl := hrule <;> exact Rule.transform_uniform hout

theorem Transparent.of_get? {rules : RuleSet} (h : rules.Transparent) {kind : String} {rule : Rule}
    (hrule : rules.get? kind = some rule) : ∀ out ∈ rule.outputs, out.transform = .transparent :=
  h rule (List.mem_of_find?_eq_some hrule)

theorem grounded_buffers {r : Rule} (hr : r ∈ buffers) {o : Outlet} (ho : o ∈ r.outputs) :
    Transform.Grounded o.transform := by
  rw [buffers_transparent r hr o ho]
  exact .transparent

theorem grounded_dividers {r : Rule} (hr : r ∈ dividers) {o : Outlet}
    (ho : o ∈ r.outputs) : Transform.Grounded o.transform := by
  obtain hr | hr := List.mem_append.mp hr
  · simp only [List.mem_cons, List.not_mem_nil, or_false] at hr
    obtain rfl | rfl | rfl | rfl | rfl := hr <;> rw [Rule.transform_uniform ho]
    · exact .divider none ⟨nofun, Or.inl rfl⟩
    · exact .divider (some "INVERT") ⟨nofun, Or.inl rfl⟩
    all_goals exact .inverter
  · obtain ⟨kind, -, rfl⟩ := List.mem_map.mp hr
    obtain ⟨i, -, rfl⟩ := List.mem_map.mp ho
    exact .pll i

end RuleSet
end ClockTree
