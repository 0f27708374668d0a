import ClockTree.Number.Fixed
import ClockTree.Number.Reader
import ClockTree.Proofs.Number.Equality

/-!
# Numbers as they are written

A number is written in letters, digits, points and dashes. Equal numbers are written alike, as the
sign of a zero is dropped.
-/
namespace ClockTree.Number

def ReadsAs (places : Nat) (x y : Float) : Prop :=
  read? (trimmed places x) = some y ∧ (x == y) = true

def ReadsBack (places : Nat) (x : Float) : Prop := ∃ y, ReadsAs places x y

instance (places : Nat) (x : Float) : Decidable (ReadsBack places x) :=
  decidable_of_iff ((read? (trimmed places x)).any (x == ·)) <| by
    simp only [ReadsBack, ReadsAs, Option.any_eq_true]

theorem mem_of_mem_dropEndWhile {p : Char → Bool} {cs : List Char} {c : Char}
    (h : c ∈ dropEndWhile p cs) : c ∈ cs := by
  unfold dropEndWhile at h
  exact List.mem_reverse.mp ((List.dropWhile_sublist p).mem (List.mem_reverse.mp h))

def isNumberChar (c : Char) : Bool := c.isAlphanum || c == '.' || c == '-'

theorem isNumberChar_pointText {places units : Nat} {c : Char} (h : c ∈ pointText places units) :
    isNumberChar c := by
  have hdigit : ∀ c ∈ List.replicate (places + 1 - (toString units).toList.length) '0' ++
      (toString units).toList, isNumberChar c := by
    intro c hc
    obtain hc | hc := List.mem_append.mp hc
    · rw [List.eq_of_mem_replicate hc]
      decide
    · rw [Nat.toString_eq_repr, Nat.toList_repr] at hc
      have hdigit := Nat.isDigit_of_mem_toDigits (by decide) (by decide) hc
      simp [isNumberChar, Char.isAlphanum, hdigit]
  unfold pointText at h
  dsimp only at h
  split at h
  · exact hdigit c (List.mem_of_mem_take h)
  · obtain hc | hc := List.mem_append.mp h
    · exact hdigit c (List.mem_of_mem_take hc)
    · obtain rfl | hc := List.mem_cons.mp hc
      · decide
      · exact hdigit c (List.mem_of_mem_drop hc)

theorem isNumberChar_fixed {places : Nat} {x : Float} {c : Char} (h : c ∈ (fixed places x).toList) :
    isNumberChar c := by
  have hword : ∀ {w : String}, w.toList.all isNumberChar → c ∈ w.toList → isNumberChar c :=
    fun hw hc => List.all_eq_true.mp hw c hc
  unfold fixed at h
  split at h
  · exact hword (by decide) h
  · split at h
    · exact hword (by decide) h
    · exact hword (by decide) h
  · split at h
    · rw [String.toList_ofList] at h
      obtain rfl | h := List.mem_cons.mp h
      · decide
      · exact isNumberChar_pointText h
    · rw [String.toList_ofList] at h
      exact isNumberChar_pointText h

theorem isNumberChar_trimmed {places : Nat} {x : Float} {c : Char}
    (h : c ∈ (trimmed places x).toList) : isNumberChar c := by
  unfold trimmed at h
  rw [String.toList_ofList] at h
  split at h
  · rw [List.mem_singleton.mp h]
    decide
  · unfold trimPlaces at h
    split at h
    · exact isNumberChar_fixed (mem_of_mem_dropEndWhile (mem_of_mem_dropEndWhile h))
    · exact isNumberChar_fixed h

theorem dropEndWhile_append {p : Char → Bool} {cs ds : List Char} (h : ∀ c ∈ ds, p c) :
    dropEndWhile p (cs ++ ds) = dropEndWhile p cs := by
  unfold dropEndWhile
  rw [List.reverse_append, List.dropWhile_append_of_pos fun c hc => h c (List.mem_reverse.mp hc)]

theorem scaledUnits_zero (places : Nat) (q : Int) : scaledUnits places 0 q = 0 := by
  unfold scaledUnits halfEven
  have hpos : 0 < 1 <<< (-q).toNat := by
    rw [Nat.one_shiftLeft]
    exact Nat.two_pow_pos _
  simp only [Nat.zero_mul, Nat.zero_shiftLeft, Nat.zero_mod, Nat.mul_zero, hpos, if_true,
    Nat.zero_div]

theorem pointText_zero (places : Nat) :
    pointText places 0 = '0' :: if places = 0 then [] else '.' :: List.replicate places '0' := by
  have hdigits : (toString 0).toList = ['0'] := by decide
  have hpadded : List.replicate (places + 1 - ['0'].length) '0' ++ ['0'] =
      '0' :: List.replicate places '0' := by
    rw [List.length_singleton, Nat.add_sub_cancel, ← List.replicate_succ', List.replicate_succ]
  unfold pointText
  dsimp only
  rw [hdigits, hpadded]
  split
  · rename_i hplaces
    simp [hplaces]
  · simp

theorem trimmed_of_zero {places : Nat} {x : Float} (h : IsZero (unpacked x)) :
    trimmed places x = "0" := by
  obtain ⟨s, hs⟩ := h
  have hexact : exact x = .finite (isNegative s) 0 leastExponent := by rw [exact_eq, hs]; rfl
  have htrim : ∀ sign : List Char, (∀ c ∈ sign, c = '-') →
      trimPlaces (sign ++ pointText places 0) = sign ++ ['0'] := by
    intro sign hsign
    have hnone : '.' ∉ sign := fun hmem => absurd (hsign '.' hmem) (by decide)
    rw [pointText_zero]
    split
    · rw [trimPlaces, if_neg (by simpa using hnone)]
    · rw [trimPlaces, if_pos (by simp),
        show sign ++ '0' :: '.' :: List.replicate places '0' =
          (sign ++ ['0', '.']) ++ List.replicate places '0' by simp,
        dropEndWhile_append (by simp +contextual [List.mem_replicate])]
      simp [dropEndWhile]
  unfold trimmed fixed
  rw [hexact]
  simp only [scaledUnits_zero]
  cases isNegative s with
  | true =>
    have := htrim ['-'] (by simp)
    simp only [if_true, String.toList_ofList]
    rw [show '-' :: pointText places 0 = ['-'] ++ pointText places 0 from rfl, this]
    decide
  | false =>
    have := htrim [] (by simp)
    simp only [Bool.false_eq_true, if_false, String.toList_ofList]
    rw [show pointText places 0 = [] ++ pointText places 0 from rfl, this]
    decide

theorem trimmed_congr {x y : Float} (h : x == y) (places : Nat) :
    trimmed places x = trimmed places y := by
  obtain hsame | ⟨hx, hy⟩ := alike_of_beq h
  · unfold trimmed fixed
    rw [exact_eq, exact_eq, hsame]
  · rw [trimmed_of_zero hx, trimmed_of_zero hy]

theorem ReadsAs.trimmed_eq {places : Nat} {x y : Float} (h : ReadsAs places x y) :
    trimmed places y = trimmed places x :=
  (trimmed_congr h.2 places).symm

theorem trimmed_ne_empty {places : Nat} {x y : Float} (h : read? (trimmed places x) = some y) :
    trimmed places x ≠ "" := by
  intro hempty
  rw [hempty] at h
  simp [read?, readMagnitude?, spanDigits] at h

end ClockTree.Number
