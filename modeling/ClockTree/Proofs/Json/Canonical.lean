import ClockTree.Json.Schema
import Mathlib.Data.String.Basic

/-!
# Canonical values

In a canonical value the members of a map stand in strictly increasing order of their names, and a
record has every field, with a canonical value or with what stands for a missing one.
-/
namespace ClockTree.Json

def InNameOrder {α : Type} (ms : List (String × α)) : Prop := ms.Pairwise fun a b => a.1 < b.1

theorem InNameOrder.map {α β : Type} {ms : List (String × α)} (h : InNameOrder ms)
    {f : String × α → String × β} (hf : ∀ m, (f m).1 = m.1) : InNameOrder (ms.map f) :=
  List.pairwise_map.mpr (h.imp fun {a b} hlt => by rwa [hf a, hf b])

theorem InNameOrder.nodup {α : Type} {ms : List (String × α)} (h : InNameOrder ms) :
    (ms.map (·.1)).Nodup :=
  List.pairwise_map.mpr (h.imp fun hlt => hlt.ne)

section
variable {α : Type} {k : String} {v : α}

theorem mem_insertSorted {ms : List (String × α)} {m : String × α} (h : m ∈ insertSorted k v ms) :
    m = (k, v) ∨ m ∈ ms := by
  induction ms with
  | nil => exact Or.inl (List.mem_singleton.mp h)
  | cons a ms ih =>
    unfold insertSorted at h
    split at h
    · exact List.mem_cons.mp h
    · split at h
      · exact (List.mem_cons.mp h).imp_right (List.mem_cons_of_mem _)
      · obtain rfl | h := List.mem_cons.mp h
        · exact Or.inr List.mem_cons_self
        · exact (ih h).imp_right (List.mem_cons_of_mem _)

theorem InNameOrder.insertSorted {ms : List (String × α)} (h : InNameOrder ms) (k : String)
    (v : α) : InNameOrder (insertSorted k v ms) := by
  induction ms with
  | nil => exact List.pairwise_singleton _ _
  | cons a ms ih =>
    obtain ⟨hfirst, hrest⟩ := List.pairwise_cons.mp h
    unfold Json.insertSorted
    split
    · rename_i hlt
      exact List.pairwise_cons.mpr
        ⟨List.forall_mem_cons.mpr ⟨hlt, fun m hm => hlt.trans (hfirst m hm)⟩, h⟩
    · rename_i hnlt
      split
      · rename_i same
        exact List.pairwise_cons.mpr ⟨fun m hm => same ▸ hfirst m hm, hrest⟩
      · rename_i hne
        refine List.pairwise_cons.mpr ⟨fun m hm => ?_, ih hrest⟩
        obtain rfl | hm := mem_insertSorted hm
        · exact lt_of_le_of_ne (not_lt.mp hnlt) (Ne.symm hne)
        · exact hfirst m hm

theorem foldl_insertSorted {given acc : List (String × α)} (h : InNameOrder acc) :
    InNameOrder (given.foldl (fun acc (k, v) => insertSorted k v acc) acc) ∧
      given.foldl (fun acc (k, v) => insertSorted k v acc) acc ⊆ acc ++ given := by
  induction given generalizing acc with
  | nil => exact ⟨h, by simp⟩
  | cons m given ih =>
    obtain ⟨horder, hsub⟩ := ih (h.insertSorted m.1 m.2)
    refine ⟨horder, fun x hx => ?_⟩
    obtain hx | hx := List.mem_append.mp (hsub hx)
    · obtain rfl | hx := mem_insertSorted hx
      · simp
      · exact List.mem_append_left _ hx
    · exact List.mem_append_right _ (List.mem_cons_of_mem _ hx)

theorem sortMembers_order (ms : List (String × α)) : InNameOrder (sortMembers ms) :=
  (foldl_insertSorted .nil).1

theorem sortMembers_subset (ms : List (String × α)) : sortMembers ms ⊆ ms :=
  (foldl_insertSorted .nil).2

end

theorem exists_of_mem_mapM {α β : Type} {f : α → Option β} {xs : List α} {ys : List β}
    (h : xs.mapM f = some ys) {y : β} (hy : y ∈ ys) : ∃ x ∈ xs, f x = some y := by
  induction xs generalizing ys with
  | nil =>
    cases h
    cases hy
  | cons x xs ih =>
    rw [List.mapM_cons] at h
    obtain ⟨first, hfirst, h⟩ := Option.bind_eq_some_iff.mp h
    obtain ⟨rest, hrest, h⟩ := Option.bind_eq_some_iff.mp h
    obtain rfl := Option.some.inj h
    obtain rfl | hy := List.mem_cons.mp hy
    · exact ⟨x, List.mem_cons_self, hfirst⟩
    · obtain ⟨x', hx', hf⟩ := ih hrest hy
      exact ⟨x', List.mem_cons_of_mem _ hx', hf⟩

namespace Schema

def Yields (s : Schema) (v : Json) : Prop := ∃ room raw, s.conform? room raw = some v

/-- What a field may hold: a canonical value, or what stands for a missing one. -/
def Holds (field : (String × Option String) × Missing × Schema) (v : Json) : Prop :=
  field.2.2.Yields v ∨ field.2.1 = .is v ∨ field.2.1 = .absent ∧ v = .null

theorem yields_map {item : Schema} {v : Json} (h : (Schema.map item).Yields v) :
    InNameOrder v.members ∧ ∀ m ∈ v.members, item.Yields m.2 := by
  obtain ⟨room, raw, h⟩ := h
  rw [conform?.eq_def] at h
  dsimp only at h
  split at h
  · simp only [Option.bind_eq_bind, Option.bind_eq_some_iff, Option.some.injEq] at h
    obtain ⟨room, -, given, -, values, hvalues, rfl⟩ := h
    refine ⟨sortMembers_order values, fun m hm => ?_⟩
    obtain ⟨g, -, hg⟩ := exists_of_mem_mapM hvalues (sortMembers_subset values hm)
    obtain ⟨v, hv, rfl⟩ := Option.map_eq_some_iff.mp hg
    exact ⟨room, _, hv⟩
  · cases h

theorem holds_conformMembers {room : Nat} {given : List (String × Raw)}
    {fields : List ((String × Option String) × Missing × Schema)} {ms : List (String × Json)}
    (h : conformMembers? room given fields = some ms) :
    List.Forall₂ (fun field m => m.1 = field.1.1 ∧ Holds field m.2) fields ms := by
  induction fields generalizing ms with
  | nil =>
    cases (conformMembers?.eq_1 room given).symm.trans h
    exact .nil
  | cons field fields ih =>
    obtain ⟨names, missing, s⟩ := field
    rw [conformMembers?.eq_2] at h
    obtain ⟨found, -, h⟩ := Option.bind_eq_some_iff.mp h
    have hrest : ∀ {v}, Holds (names, missing, s) v →
        (do some ((names.1, v) :: (← conformMembers? room given fields))) = some ms →
        List.Forall₂ (fun field m => m.1 = field.1.1 ∧ Holds field m.2)
          ((names, missing, s) :: fields) ms := fun hv h => by
      obtain ⟨rest, hrest, h⟩ := Option.bind_eq_some_iff.mp h
      obtain rfl := Option.some.inj h
      exact .cons ⟨rfl, hv⟩ (ih hrest)
    cases found with
    | some raw =>
      obtain ⟨v, hv, h⟩ := Option.bind_eq_some_iff.mp h
      exact hrest (Or.inl ⟨room, raw, hv⟩) h
    | none =>
      cases missing with
      | refused => cases h
      | absent => exact hrest (Or.inr (Or.inr ⟨rfl, rfl⟩)) h
      | is v => exact hrest (Or.inr (Or.inl rfl)) h

theorem holds_conformItems {room : Nat} {given : List Raw}
    {fields : List ((String × Option String) × Missing × Schema)} {ms : List (String × Json)}
    (h : conformItems? room given fields = some ms) :
    List.Forall₂ (fun field m => m.1 = field.1.1 ∧ Holds field m.2) fields ms := by
  induction fields generalizing given ms with
  | nil =>
    rw [conformItems?.eq_def] at h
    dsimp only at h
    split at h
    · cases h
      exact .nil
    · cases h
  | cons field fields ih =>
    obtain ⟨names, missing, s⟩ := field
    rw [conformItems?.eq_def] at h
    have hrest : ∀ {v}, Holds (names, missing, s) v →
        (do some ((names.1, v) :: (← conformItems? room given.tail fields))) = some ms →
        List.Forall₂ (fun field m => m.1 = field.1.1 ∧ Holds field m.2)
          ((names, missing, s) :: fields) ms := fun hv h => by
      obtain ⟨rest, hrest, h⟩ := Option.bind_eq_some_iff.mp h
      obtain rfl := Option.some.inj h
      exact .cons ⟨rfl, hv⟩ (ih hrest)
    cases given with
    | cons raw given =>
      obtain ⟨v, hv, h⟩ := Option.bind_eq_some_iff.mp h
      exact hrest (Or.inl ⟨room, raw, hv⟩) h
    | nil =>
      cases missing with
      | refused => cases h
      | absent => cases h
      | is v => exact hrest (Or.inr (Or.inl rfl)) h

theorem holds_find {fields : List ((String × Option String) × Missing × Schema)}
    {ms : List (String × Json)}
    (h : List.Forall₂ (fun field m => m.1 = field.1.1 ∧ Holds field m.2) fields ms)
    (hnodup : (fields.map (·.1.1)).Nodup) {field : (String × Option String) × Missing × Schema}
    (hfield : field ∈ fields) : Holds field ((Json.obj ms).member field.1.1) := by
  induction h with
  | nil => cases hfield
  | @cons first m fields ms hfirst _ ih =>
    obtain ⟨hnew, hnodup⟩ := List.nodup_cons.mp hnodup
    obtain ⟨hname, hholds⟩ := hfirst
    unfold member at ih ⊢
    dsimp only at ih ⊢
    obtain rfl | hfield := List.mem_cons.mp hfield
    · rw [List.find?_cons, beq_iff_eq.mpr hname]
      exact hholds
    · have hne : (m.1 == field.1.1) = false := by
        rw [hname, beq_eq_false_iff_ne]
        exact fun same => hnew (List.mem_map.mpr ⟨field, hfield, same.symm⟩)
      rw [List.find?_cons, hne]
      exact ih hnodup hfield

theorem holds_member {fields : List ((String × Option String) × Missing × Schema)} {v : Json}
    (h : (Schema.record fields).Yields v) (hnodup : (fields.map (·.1.1)).Nodup)
    {field : (String × Option String) × Missing × Schema} (hfield : field ∈ fields) :
    Holds field (v.member field.1.1) := by
  obtain ⟨room, raw, h⟩ := h
  rw [conform?.eq_def] at h
  dsimp only at h
  split at h
  · simp only [Option.bind_eq_bind, Option.bind_eq_some_iff, Option.map_eq_some_iff] at h
    obtain ⟨room, -, given, -, ms, hms, rfl⟩ := h
    exact holds_find (holds_conformMembers hms) hnodup hfield
  · simp only [Option.bind_eq_bind, Option.bind_eq_some_iff, Option.map_eq_some_iff] at h
    obtain ⟨room, -, ms, hms, rfl⟩ := h
    exact holds_find (holds_conformItems hms) hnodup hfield
  · cases h

theorem holds_map {names : String × Option String} {item : Schema} {v : Json}
    (h : Holds (names, .is (.obj []), .map item) v) :
    InNameOrder v.members ∧ ∀ m ∈ v.members, item.Yields m.2 := by
  obtain h | h | ⟨h, -⟩ := h
  · exact yields_map h
  · obtain rfl := Missing.is.inj h
    exact ⟨.nil, fun m hm => by cases hm⟩
  · cases h

end Schema
end ClockTree.Json
