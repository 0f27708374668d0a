import Mathlib.Data.List.Forall2

/-!
# Computations that may fail

When computations run one after the other, or one for each item of a list, there is a result exactly
when each of them has one.
-/
namespace ClockTree

variable {ε α β : Type}

theorem bind_eq_ok_iff {x : Except ε α} {f : α → Except ε β} {b : β} :
    x >>= f = .ok b ↔ ∃ a, x = .ok a ∧ f a = .ok b := by
  cases x <;> simp [bind, Except.bind]

theorem bind_eq_error_iff {x : Except ε α} {f : α → Except ε β} {e : ε} :
    x >>= f = .error e ↔ x = .error e ∨ ∃ a, x = .ok a ∧ f a = .error e := by
  cases x <;> simp [bind, Except.bind]

theorem exists_bind_ok_iff {x : Except ε α} {f : α → Except ε β} :
    (∃ b, x >>= f = .ok b) ↔ ∃ a, x = .ok a ∧ ∃ b, f a = .ok b := by
  simp only [bind_eq_ok_iff, exists_and_left, exists_comm (α := β)]

theorem ite_throw_eq_ok_iff {c : Prop} [Decidable c] {e : ε} {f : α → Except ε β}
    {x : Except ε β} {b : β} : (if c then throw e >>= f else x) = .ok b ↔ ¬ c ∧ x = .ok b := by
  split <;> simp_all [bind, Except.bind, throw, throwThe, MonadExceptOf.throw]

theorem ite_throw_eq_error_iff {c : Prop} [Decidable c] {e e' : ε} {f : α → Except ε β}
    {x : Except ε β} : (if c then throw e >>= f else x) = .error e' ↔
      c ∧ e = e' ∨ ¬ c ∧ x = .error e' := by
  split <;> simp_all [bind, Except.bind, throw, throwThe, MonadExceptOf.throw]

theorem ok_of_mapError {ε' : Type} {f : ε → ε'} {r : Except ε α} {a : α}
    (h : r.mapError f = .ok a) : r = .ok a := by
  cases r with
  | error e => cases h
  | ok a' => exact congrArg Except.ok (Except.ok.inj h)

theorem eq_ok_of_toOption {x : Except ε α} {a : α} (h : x.toOption = some a) :
    x = .ok a := by
  cases x with
  | error reason => cases h
  | ok b =>
    cases h
    rfl

/-! ### Lists of computations -/

theorem mapM_congr {f g : α → Except ε β} {xs : List α} (h : ∀ x ∈ xs, f x = g x) :
    xs.mapM f = xs.mapM g := by
  induction xs with
  | nil => rfl
  | cons x xs ih =>
    obtain ⟨hx, hxs⟩ := List.forall_mem_cons.mp h
    rw [List.mapM_cons, List.mapM_cons, hx, ih hxs]

theorem mapM_map_ok {γ : Type} {f : α → Except ε β} {g : β → γ} (xs : List α) :
    xs.mapM (fun x => (f x).map g) = (xs.mapM f).map (List.map g) := by
  induction xs with
  | nil => rfl
  | cons x xs ih =>
    rw [List.mapM_cons, List.mapM_cons, ih]
    cases f x with
    | error reason => rfl
    | ok y => cases xs.mapM f <;> rfl

theorem mapM_cases (f : α → Except ε β) (xs : List α) :
    (∃ x ∈ xs, ∃ reason, f x = .error reason ∧ xs.mapM f = .error reason) ∨
      ∀ x ∈ xs, ∃ y, f x = .ok y := by
  induction xs with
  | nil => exact Or.inr (List.forall_mem_nil _)
  | cons x xs ih =>
    rw [List.mapM_cons]
    cases hx : f x with
    | error reason => exact Or.inl ⟨x, List.mem_cons_self, reason, hx, rfl⟩
    | ok y =>
      obtain ⟨x', hx', reason, hreason, hmap⟩ | hall := ih
      · refine Or.inl ⟨x', List.mem_cons_of_mem x hx', reason, hreason, ?_⟩
        rw [hmap]
        rfl
      · exact Or.inr (List.forall_mem_cons.mpr ⟨⟨y, hx⟩, hall⟩)

theorem exists_mapM_ok_iff {f : α → Except ε β} {xs : List α} :
    (∃ ys, xs.mapM f = .ok ys) ↔ ∀ x ∈ xs, ∃ y, f x = .ok y := by
  induction xs with
  | nil => exact iff_of_true ⟨[], rfl⟩ (List.forall_mem_nil _)
  | cons x xs ih =>
    rw [List.mapM_cons, exists_bind_ok_iff, List.forall_mem_cons, ← ih]
    simp [exists_bind_ok_iff, pure, Except.pure]

theorem exists_option_mapM_ok_iff {f : α → Except ε β} {x : Option α} :
    (∃ y, x.mapM f = .ok y) ↔ ∀ a ∈ x.toList, ∃ b, f a = .ok b := by
  cases x with
  | none => exact iff_of_true ⟨none, rfl⟩ (List.forall_mem_nil _)
  | some a =>
    rw [Option.mapM_some]
    cases hf : f a <;> simp [hf, Functor.map, Except.map]

theorem forall₂_of_mapM_ok {f : α → Except ε β} {xs : List α} {ys : List β}
    (h : xs.mapM f = .ok ys) : List.Forall₂ (fun x y => f x = .ok y) xs ys := by
  induction xs generalizing ys with
  | nil =>
    cases h
    exact .nil
  | cons x xs ih =>
    rw [List.mapM_cons] at h
    obtain ⟨first, hfirst, h⟩ := bind_eq_ok_iff.mp h
    obtain ⟨rest, hrest, h⟩ := bind_eq_ok_iff.mp h
    obtain rfl := Except.ok.inj h
    exact .cons hfirst (ih hrest)

theorem exists_iff_of_forall₂ {R : α → β → Prop} {p : α → Prop} {q : β → Prop}
    {xs : List α} {ys : List β} (h : List.Forall₂ R xs ys) (hpq : ∀ x y, R x y → (q y ↔ p x)) :
    (∃ y ∈ ys, q y) ↔ ∃ x ∈ xs, p x := by
  induction h with
  | nil => simp
  | cons hxy _ ih => rw [List.exists_mem_cons_iff, List.exists_mem_cons_iff, hpq _ _ hxy, ih]

theorem mem_iff_of_forall₂ {f : α → Except ε β} {xs : List α} {ys : List β}
    (h : List.Forall₂ (fun x y => f x = .ok y) xs ys) {y : β} : y ∈ ys ↔ ∃ x ∈ xs, f x = .ok y := by
  rw [← exists_iff_of_forall₂ (q := (· = y)) h fun x z hx => by rw [hx, Except.ok.injEq]]
  simp

theorem mem_mapM_ok_iff {f : α → Except ε β} {xs : List α} {ys : List β}
    (h : xs.mapM f = .ok ys) {y : β} : y ∈ ys ↔ ∃ x ∈ xs, f x = .ok y :=
  mem_iff_of_forall₂ (forall₂_of_mapM_ok h)

end ClockTree
