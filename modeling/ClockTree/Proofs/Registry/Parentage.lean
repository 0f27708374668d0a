import ClockTree.Proofs.Propagation.Ancestry
import Mathlib.Logic.Relation

/-!
# The search along parents

The search for a name among the parents of a clock stops after one more step than there are clocks.
That is enough for every registry: up to the place where the name stands first, the chain of parents
names registered clocks only, each once, and it is the next name after them that is found. A circle
of parents or a parent that is not registered changes nothing in this.
-/
namespace ClockTree
namespace Registry

/-- A registered clock of the one name is derived from a clock of the other name, which need not be
registered. -/
def HasParent (r : Registry) (clock parent : String) : Prop :=
  ∃ c ∈ r.clocks, c.name = clock ∧ c.origin = .generated parent

/-- The name `a` stands first on the chain of parents `n` steps above a name. -/
inductive Ascends (r : Registry) (a : String) : Nat → String → Prop where
  | here : Ascends r a 0 a
  | step {n : Nat} {name parent : String} (hne : name ≠ a) (hparent : r.HasParent name parent)
    (h : Ascends r a n parent) : Ascends r a (n + 1) name

section
variable {r : Registry} {a name parent : String}

theorem HasParent.unique {parent' : String} (hr : r.Coherent) (h : r.HasParent name parent)
    (h' : r.HasParent name parent') : parent = parent' := by
  obtain ⟨c, hc, rfl, horigin⟩ := h
  obtain ⟨c', hc', hname, horigin'⟩ := h'
  obtain rfl := hr.eq_of_name hc' hc hname
  rw [horigin, Origin.generated.injEq] at horigin'
  exact horigin'

theorem parent?_named? (hr : r.Coherent) :
    (r.named? name).bind Clock.parent? = some parent ↔ r.HasParent name parent := by
  constructor
  · intro h
    obtain ⟨c, hc, hparent⟩ := Option.bind_eq_some_iff.mp h
    obtain ⟨hmem, rfl⟩ := hr.named?_eq_some_iff.mp hc
    refine ⟨c, hmem, rfl, ?_⟩
    cases horigin : c.origin with
    | explicit => simp [Clock.parent?, horigin, Origin.parent?] at hparent
    | generated p =>
      rw [Clock.parent?, horigin] at hparent
      rw [Option.some.inj hparent]
  · rintro ⟨c, hc, rfl, horigin⟩
    rw [hr.named?_eq_some_iff.mpr ⟨hc, rfl⟩, Option.bind_some, Clock.parent?, horigin]
    rfl

namespace Ascends

theorem steps_unique (hr : r.Coherent) {m n : Nat} (h : r.Ascends a m name)
    (h' : r.Ascends a n name) : m = n := by
  induction h generalizing n with
  | here =>
    cases h' with
    | here => rfl
    | step hne => exact absurd rfl hne
  | step hne hparent _ ih =>
    cases h' with
    | here => exact absurd rfl hne
    | step _ hparent' hp' =>
      obtain rfl := hparent.unique hr hparent'
      rw [ih hp']

/-- Every name below the first place of `a` is that of a registered clock, so there are no more such
places than clocks. -/
theorem le_length (hr : r.Coherent) {n : Nat} (h : r.Ascends a n name) : n ≤ r.clocks.length := by
  cases n with
  | zero => exact Nat.zero_le _
  | succ n =>
    -- The place itself need not be registered, so the line is drawn through the names below it.
    obtain ⟨l, hlength, hnodup, hl⟩ := exists_line (D := fun m x => r.Ascends a (m + 1) x)
      (fun h h' => Nat.succ.inj (h.steps_unique hr h'))
      (fun h => by cases h with | step _ _ hp => exact ⟨_, hp⟩) h
    have hle := length_le_of_names r hnodup fun x hx => by
      obtain ⟨m, -, hm⟩ := hl x hx
      cases hm with
      | step _ hparent _ =>
        obtain ⟨c, hc, hname, -⟩ := hparent
        exact ⟨c, hc, hname⟩
    rwa [hlength] at hle

theorem reaches (hr : r.Coherent) {n fuel : Nat} (h : r.Ascends a n name) (hfuel : n < fuel) :
    r.reaches a fuel (some name) := by
  induction h generalizing fuel with
  | here =>
    obtain ⟨fuel, rfl⟩ := Nat.exists_eq_add_one_of_ne_zero (Nat.ne_of_gt hfuel)
    simp [Registry.reaches]
  | step hne hparent _ ih =>
    obtain ⟨fuel, rfl⟩ := Nat.exists_eq_add_one_of_ne_zero (Nat.ne_zero_of_lt hfuel)
    rw [Registry.reaches, (parent?_named? hr).mpr hparent, ih (Nat.lt_of_succ_lt_succ hfuel),
      Bool.or_true]

end Ascends

theorem exists_ascends (h : Relation.ReflTransGen r.HasParent name a) :
    ∃ n, r.Ascends a n name := by
  induction h using Relation.ReflTransGen.head_induction_on with
  | refl => exact ⟨0, .here⟩
  | @head name parent hparent _ ih =>
    obtain ⟨n, hn⟩ := ih
    by_cases hname : name = a
    · exact ⟨0, hname ▸ .here⟩
    · exact ⟨n + 1, .step hname hparent hn⟩

theorem reflTransGen_of_reaches (hr : r.Coherent) {fuel : Nat}
    (h : r.reaches a fuel (some name)) : Relation.ReflTransGen r.HasParent name a := by
  induction fuel generalizing name with
  | zero => cases h
  | succ fuel ih =>
    rw [Registry.reaches, Bool.or_eq_true, beq_iff_eq] at h
    obtain rfl | h := h
    · exact .refl
    · cases hparent : (r.named? name).bind Clock.parent? with
      | none =>
        rw [hparent] at h
        cases fuel <;> cases h
      | some parent =>
        rw [hparent] at h
        exact .head ((parent?_named? hr).mp hparent) (ih h)

theorem Coherent.leadsTo_iff (hr : r.Coherent) :
    r.leadsTo a name ↔ Relation.ReflTransGen r.HasParent name a := by
  refine ⟨reflTransGen_of_reaches hr, fun h => ?_⟩
  obtain ⟨n, hn⟩ := exists_ascends h
  exact hn.reaches hr (Nat.lt_succ_of_le (hn.le_length hr))

end

/-- The search answers for every two names of every registry that is reached, whatever parents were
declared: it finds the name if it is that of the clock or stands on its chain of parents. -/
theorem history_leadsTo (d : Design) (ops : List Operation) (ancestor clock : String) :
    (history d ops).leadsTo ancestor clock ↔
      ancestor = clock ∨ Relation.TransGen (history d ops).HasParent clock ancestor := by
  rw [(sound_history d ops).coherent.leadsTo_iff, Relation.reflTransGen_iff_eq_or_transGen]

end Registry
end ClockTree
