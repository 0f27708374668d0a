import ClockTree.Text.Blank
import Mathlib.Data.List.TakeWhile

/-!
# White space at the ends of a text

White space that is put before or behind a text is trimmed again, and a text that neither begins nor
ends with white space is kept as it is.
-/
namespace ClockTree.Text

section
variable {cs blanks : List Char}

theorem trimEnd_append (h : ∀ c ∈ blanks, isBlank c) : trimEnd (cs ++ blanks) = trimEnd cs := by
  rw [trimEnd, trimEnd, List.reverse_append, List.dropWhile_append_of_pos]
  exact fun c hc => h c (List.mem_reverse.mp hc)

theorem exists_trimEnd (cs : List Char) :
    ∃ blanks, cs = trimEnd cs ++ blanks ∧ ∀ c ∈ blanks, isBlank c := by
  refine ⟨(cs.reverse.takeWhile isBlank).reverse, ?_, fun c hc => ?_⟩
  · rw [trimEnd, ← List.reverse_append, List.takeWhile_append_dropWhile, List.reverse_reverse]
  · exact List.mem_takeWhile_imp (List.mem_reverse.mp hc)

theorem trim_append_left (h : ∀ c ∈ blanks, isBlank c) :
    trim (String.ofList (blanks ++ cs)) = trim (String.ofList cs) := by
  rw [trim, trim, String.toList_ofList, String.toList_ofList, trimStart,
    List.dropWhile_append_of_pos h, trimStart]

theorem trim_append_right (h : ∀ c ∈ blanks, isBlank c) :
    trim (String.ofList (cs ++ blanks)) = trim (String.ofList cs) := by
  rw [trim, trim, String.toList_ofList, String.toList_ofList, trimStart, trimStart,
    List.dropWhile_append]
  split
  · rename_i hempty
    rw [List.isEmpty_iff.mp hempty, List.dropWhile_eq_nil_iff.mpr h]
  · rw [trimEnd_append h]

theorem trim_trimEnd (cs : List Char) :
    trim (String.ofList (trimEnd cs)) = trim (String.ofList cs) := by
  obtain ⟨blanks, hcs, hblanks⟩ := exists_trimEnd cs
  conv => rhs; rw [hcs]
  exact (trim_append_right hblanks).symm

end

theorem mem_of_mem_trim {s : String} {c : Char} (h : c ∈ (trim s).toList) : c ∈ s.toList := by
  rw [trim, String.toList_ofList, trimEnd, List.mem_reverse] at h
  have hstart := List.mem_reverse.mp ((List.dropWhile_sublist _).subset h)
  exact (List.dropWhile_sublist _).subset hstart

theorem exists_trim_cons {s : String} {c : Char} {cs : List Char} (hs : s.toList = c :: cs)
    (hc : isBlank c = false) : ∃ rest, (trim s).toList = c :: rest := by
  obtain ⟨blanks, hblanks, hall⟩ := exists_trimEnd (c :: cs)
  have htrim : (trim s).toList = trimEnd (c :: cs) := by
    rw [trim, hs, trimStart, List.dropWhile_cons_of_neg (by simp [hc]), String.toList_ofList]
  rw [htrim]
  cases hrest : trimEnd (c :: cs) with
  | nil =>
    rw [hrest, List.nil_append] at hblanks
    rw [hall c (hblanks ▸ List.mem_cons_self)] at hc
    cases hc
  | cons b rest =>
    rw [hrest, List.cons_append] at hblanks
    exact ⟨rest, by rw [(List.cons.inj hblanks).1]⟩

theorem trim_of_forall {s : String} (h : ∀ c ∈ s.toList, isBlank c = false) : trim s = s := by
  have hkeep : ∀ cs : List Char, (∀ c ∈ cs, isBlank c = false) → cs.dropWhile isBlank = cs :=
    fun cs hcs => List.dropWhile_eq_self_iff.mpr fun hlen =>
      Bool.eq_false_iff.mp (hcs _ (List.getElem_mem hlen))
  rw [trim, trimStart, hkeep _ h, trimEnd, hkeep _ fun c hc => h c (List.mem_reverse.mp hc),
    List.reverse_reverse, String.ofList_toList]

end ClockTree.Text
