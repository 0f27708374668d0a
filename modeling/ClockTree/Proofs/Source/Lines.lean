import ClockTree.Diagnostic.Layout
import Mathlib.Data.String.Basic
import Mathlib.Data.List.DropRight

/-!
# Looking up lines

The line and the column of an offset come from a search among the starts of lines, the text of the
line from a scan around the offset. Both find the line that has as many newlines before it as the
offset, so what an excerpt shows belongs together: the number of a line, its text, and the carets
below it.
-/
namespace ClockTree
namespace SourceFile
open String (utf8Len utf8Len_cons utf8Len_append)

/-- What stands in front of an offset on its line. -/
def lastPart (before : List Char) : List Char := before.rtakeWhile (· != '\n')

/-! ### The last newline -/

theorem notMem_lastPart (before : List Char) : '\n' ∉ lastPart before := fun h => by
  simpa using List.mem_rtakeWhile_imp h

theorem lastPart_of_notMem {before : List Char} (h : '\n' ∉ before) : lastPart before = before :=
  List.rtakeWhile_eq_self_iff.mpr fun _ hc => bne_iff_ne.mpr fun same => h (same ▸ hc)

theorem lastPart_append (xs ys : List Char) : lastPart (xs ++ '\n' :: ys) = lastPart ys := by
  unfold lastPart
  induction ys using List.reverseRecOn with
  | nil => exact List.rtakeWhile_concat_neg _ _ _ (by decide)
  | append_singleton ys c ih =>
    rw [← List.cons_append, ← List.append_assoc, List.rtakeWhile_concat, List.rtakeWhile_concat, ih]

theorem lastPart_cases (before : List Char) :
    '\n' ∉ before ∨ ∃ xs, before = xs ++ '\n' :: lastPart before := by
  have hsplit : before.rdropWhile (· != '\n') ++ lastPart before = before :=
    List.rdropWhile_append_rtakeWhile
  obtain hnone | ⟨xs, c, hxs⟩ := List.eq_nil_or_concat' (before.rdropWhile (· != '\n'))
  · refine Or.inl fun h => ?_
    rw [hnone, List.nil_append] at hsplit
    exact notMem_lastPart before (hsplit.symm ▸ h)
  · have hne : before.rdropWhile (· != '\n') ≠ [] := by simp [hxs]
    have hlast := List.rdropWhile_last_not (· != '\n') before hne
    simp only [hxs, List.getLast_concat, bne_iff_ne, Decidable.not_not] at hlast
    refine Or.inr ⟨xs, ?_⟩
    conv_lhs => rw [← hsplit, hxs, hlast]
    simp

/-! ### The starts of lines -/

theorem startsFrom_append (pos : Nat) (xs ys : List Char) :
    startsFrom pos (xs ++ ys) = startsFrom pos xs ++ startsFrom (pos + utf8Len xs) ys := by
  induction xs generalizing pos with
  | nil => rfl
  | cons c xs ih =>
    have hnext : pos + utf8Len (c :: xs) = pos + c.utf8Size + utf8Len xs := by
      rw [utf8Len_cons]
      omega
    simp only [List.cons_append, startsFrom, ih, hnext]
    split <;> rfl

theorem length_startsFrom (pos : Nat) (cs : List Char) :
    (startsFrom pos cs).length = cs.count '\n' := by
  induction cs generalizing pos with
  | nil => rfl
  | cons c cs ih =>
    by_cases hc : c = '\n'
    · simp [startsFrom, hc, ih]
    · simp [startsFrom, hc, ih]

theorem mem_startsFrom {pos start : Nat} {cs : List Char} (h : start ∈ startsFrom pos cs) :
    pos < start ∧ start ≤ pos + utf8Len cs := by
  induction cs generalizing pos with
  | nil => cases h
  | cons c cs ih =>
    have hsize := c.utf8Size_pos
    have hrest : start ∈ startsFrom (pos + c.utf8Size) cs ∨ start = pos + c.utf8Size := by
      simp only [startsFrom] at h
      split at h
      · exact (List.mem_cons.mp h).symm
      · exact Or.inl h
    rw [utf8Len_cons]
    obtain h | rfl := hrest
    · have := ih h
      omega
    · omega

theorem getLast_startsFrom (pos : Nat) (before : List Char) :
    (pos :: startsFrom pos before).getLast (List.cons_ne_nil _ _) + utf8Len (lastPart before) =
      pos + utf8Len before := by
  obtain hnone | ⟨xs, hxs⟩ := lastPart_cases before
  · have hstarts : startsFrom pos before = [] := by
      rw [← List.length_eq_zero_iff, length_startsFrom, List.count_eq_zero]
      exact hnone
    simp [hstarts, lastPart_of_notMem hnone]
  · have hpart : startsFrom (pos + utf8Len xs + Char.utf8Size '\n') (lastPart before) = [] := by
      rw [← List.length_eq_zero_iff, length_startsFrom, List.count_eq_zero]
      exact notMem_lastPart before
    have hstarts : startsFrom pos before = startsFrom pos xs ++ [pos + utf8Len xs + Char.utf8Size '\n'] := by
      conv_lhs => rw [hxs, startsFrom_append]
      simp [startsFrom, hpart]
    have hlength : utf8Len before = utf8Len xs + Char.utf8Size '\n' + utf8Len (lastPart before) := by
      conv_lhs => rw [hxs, utf8Len_append, utf8Len_cons]
      omega
    simp only [hstarts, ← List.cons_append, List.getLast_concat, hlength]
    omega

/-! ### The search among the starts -/

/-- The first `k` entries are not beyond the offset, and the others are. -/
structure Parts (starts : Array Nat) (offset k : Nat) : Prop where
  pos : 0 < k
  le_size : k ≤ starts.size
  within : ∀ i < k, starts.getD i 0 ≤ offset
  beyond : ∀ i, k ≤ i → i < starts.size → offset < starts.getD i 0

namespace Parts
variable {starts : Array Nat} {offset k : Nat}

theorem bisect_eq (h : Parts starts offset k) {base size : Nat} (hbase : base < k)
    (hk : k ≤ base + size) (hsize : base + size ≤ starts.size) :
    bisect starts offset base size = k - 1 := by
  fun_induction bisect starts offset base size with
  | case1 base size hsmall => omega
  | case2 base size hlarge half base' ih =>
    by_cases hbeyond : offset < starts.getD (base + half) 0
    · have hmiddle : k ≤ base + half := by
        by_contra hlt
        exact absurd (h.within _ (Nat.lt_of_not_le hlt)) (Nat.not_le.mpr hbeyond)
      have hsame : base' = base := if_pos hbeyond
      rw [hsame] at ih ⊢
      exact ih hbase (by omega) (by omega)
    · have hmiddle : base + half < k := by
        by_contra hle
        exact hbeyond (h.beyond _ (Nat.le_of_not_lt hle) (by omega))
      have hnext : base' = base + half := if_neg hbeyond
      rw [hnext] at ih ⊢
      exact ih hmiddle (by omega) (by omega)

theorem locate_eq (h : Parts starts offset k) : locate starts offset =
    if starts.getD (k - 1) 0 = offset then .ok (k - 1) else .error k := by
  have hpos := h.pos
  have hsome : starts.isEmpty = false := by
    rw [Array.isEmpty_eq_false_iff, Ne, ← Array.size_eq_zero_iff]
    have := h.le_size
    omega
  have hbisect : bisect starts offset 0 starts.size = k - 1 :=
    h.bisect_eq hpos (by simpa using h.le_size) (by simp)
  have hle := h.within (k - 1) (by omega)
  unfold locate
  simp only [hsome, hbisect, Bool.false_eq_true, if_false]
  split
  · rfl
  · rw [if_pos (by omega), Nat.sub_add_cancel hpos]

end Parts

variable {f : SourceFile} {before after : List Char}

theorem getD_lineStarts (h : f.content.toList = before ++ after) (i : Nat) :
    f.lineStarts.getD i 0 =
      (((0 :: startsFrom 0 before) ++ startsFrom (utf8Len before) after)[i]?).getD 0 := by
  rw [Array.getD_eq_getD_getElem?, ← Array.getElem?_toList, lineStarts, h, startsFrom_append,
    Nat.zero_add]
  rfl

theorem size_lineStarts (h : f.content.toList = before ++ after) :
    f.lineStarts.size = (0 :: startsFrom 0 before).length + (startsFrom (utf8Len before) after).length := by
  rw [lineStarts, h, startsFrom_append, Nat.zero_add, ← List.length_append]
  rfl

theorem length_starts (before : List Char) :
    (0 :: startsFrom 0 before).length = before.count '\n' + 1 := by
  rw [List.length_cons, length_startsFrom]

theorem lineStarts_le {start : Nat} (h : start ∈ f.lineStarts.toList) :
    start ≤ f.content.utf8ByteSize := by
  obtain rfl | h := List.mem_cons.mp h
  · exact Nat.zero_le _
  · simpa [String.utf8Len_toList] using (mem_startsFrom h).2

theorem parts_lineStarts (h : f.content.toList = before ++ after) :
    Parts f.lineStarts (utf8Len before) (before.count '\n' + 1) := by
  have hget := getD_lineStarts h
  have hsize := size_lineStarts h
  rw [← length_starts]
  refine ⟨Nat.succ_pos _, hsize ▸ Nat.le_add_right _ _, fun i hi => ?_, fun i hi hlt => ?_⟩
  · have hmem := List.getElem_mem hi
    rw [hget, List.getElem?_append_left hi, List.getElem?_eq_getElem hi, Option.getD_some]
    generalize (0 :: startsFrom 0 before)[i] = start at hmem ⊢
    obtain rfl | hmem := List.mem_cons.mp hmem
    · exact Nat.zero_le _
    · simpa using (mem_startsFrom hmem).2
  · have hi' : i - (0 :: startsFrom 0 before).length < (startsFrom (utf8Len before) after).length := by
      omega
    rw [hget, List.getElem?_append_right hi, List.getElem?_eq_getElem hi', Option.getD_some]
    exact (mem_startsFrom (List.getElem_mem hi')).1

theorem lineAndColumn_eq (h : f.content.toList = before ++ after) :
    f.lineAndColumn (utf8Len before) = (before.count '\n' + 1, utf8Len (lastPart before) + 1) := by
  have hlast := getLast_startsFrom 0 before
  have hstart : f.lineStarts.getD (before.count '\n') 0 =
      (0 :: startsFrom 0 before).getLast (List.cons_ne_nil _ _) := by
    have hlt : before.count '\n' < (0 :: startsFrom 0 before).length := by
      rw [length_starts]
      exact Nat.lt_succ_self _
    rw [getD_lineStarts h, List.getElem?_append_left hlt, List.getElem?_eq_getElem hlt,
      Option.getD_some, List.getLast_eq_getElem]
    simp only [length_starts, Nat.add_sub_cancel]
  have hcolumn : utf8Len before - f.lineStarts.getD (before.count '\n') 0 =
      utf8Len (lastPart before) := by omega
  unfold lineAndColumn
  dsimp only
  rw [(parts_lineStarts h).locate_eq, Nat.add_sub_cancel]
  split_ifs <;> simp only [Nat.add_sub_cancel, hcolumn]

/-! ### The text of a line -/

theorem lineAround_append (part before after : List Char) (hpart : '\n' ∉ part) :
    lineAround part (utf8Len before) (before ++ after) =
      lastPart (part.reverse ++ before) ++ after.takeWhile (· != '\n') := by
  induction before generalizing part with
  | nil =>
    rw [List.append_nil, lastPart_of_notMem (by simpa using hpart)]
    cases after <;> simp [lineAround]
  | cons c before ih =>
    have hsize := c.utf8Size_pos
    have hrest : utf8Len (c :: before) - c.utf8Size = utf8Len before := by simp [utf8Len_cons]
    rw [List.cons_append, lineAround, if_neg (by rw [utf8Len_cons]; omega), hrest]
    by_cases hc : c = '\n'
    · rw [if_pos hc, ih [] (by simp), hc, lastPart_append]
      rfl
    · rw [if_neg hc, ih (c :: part) (by simp [hpart, Ne.symm hc])]
      simp

theorem lineAt_eq (h : f.content.toList = before ++ after) : f.lineAt (utf8Len before) =
    String.ofList (lastPart before ++ after.takeWhile (· != '\n')) := by
  rw [lineAt, h, lineAround_append [] before after (by simp)]
  rfl

theorem length_splitOn (cs : List Char) : (cs.splitOn '\n').length = cs.count '\n' + 1 := by
  induction cs with
  | nil => rfl
  | cons c cs ih =>
    by_cases hc : c = '\n'
    · simp [List.splitOn_cons_eq_if_modifyHead, hc, ih]
    · simp [List.splitOn_cons_eq_if_modifyHead, hc, ih]

theorem head?_splitOn (cs : List Char) :
    (cs.splitOn '\n').head? = some (cs.takeWhile (· != '\n')) := by
  induction cs with
  | nil => rfl
  | cons c cs ih =>
    by_cases hc : c = '\n'
    · simp [List.splitOn_cons_eq_if_modifyHead, hc]
    · obtain ⟨line, lines, hlines⟩ := List.exists_cons_of_ne_nil (List.splitOn_ne_nil '\n' cs)
      rw [hlines] at ih
      obtain rfl := Option.some.inj ih
      simp [List.splitOn_cons_eq_if_modifyHead, hc, hlines]

theorem getElem?_splitOn (before after : List Char) :
    ((before ++ after).splitOn '\n')[before.count '\n']? =
      some (lastPart before ++ after.takeWhile (· != '\n')) := by
  have hfirst : ∀ part : List Char, '\n' ∉ part →
      ((part ++ after).splitOn '\n')[0]? = some (part ++ after.takeWhile (· != '\n')) := by
    intro part hpart
    have hplain : ∀ c ∈ part, (c != '\n') = true := fun c hc =>
      bne_iff_ne.mpr fun same => hpart (same ▸ hc)
    rw [← List.head?_eq_getElem?, head?_splitOn, List.takeWhile_append_of_pos hplain]
  obtain hnone | ⟨xs, hxs⟩ := lastPart_cases before
  · rw [List.count_eq_zero.mpr hnone, lastPart_of_notMem hnone, hfirst before hnone]
  · have hpart := notMem_lastPart before
    generalize lastPart before = part at hxs hpart ⊢
    have hcount : before.count '\n' = (xs.splitOn '\n').length := by
      rw [hxs, length_splitOn, List.count_append, List.count_cons_self, List.count_eq_zero.mpr hpart]
    rw [hcount, hxs, List.append_assoc, List.cons_append, List.splitOn_append_cons_self,
      List.getElem?_append_right (Nat.le_refl _), Nat.sub_self, hfirst part hpart]

end SourceFile

namespace Diagnostic
open SourceFile
open String (utf8Len)

/-- Every line starts within the text. The line and the column of an offset, the text of its line and
what an excerpt shows of them agree: the column leads behind the part of this very text that stands in
front of the offset. -/
theorem lookups_agree {f : SourceFile} {before after : List Char}
    (h : f.content.toList = before ++ after) :
    let offset := utf8Len before
    let line := before.count '\n' + 1
    let part := before.rtakeWhile (· != '\n')
    (∀ start ∈ f.lineStarts.toList, start ≤ f.content.utf8ByteSize) ∧
      f.lineAndColumn offset = (line, utf8Len part + 1) ∧
      ∃ text, (f.content.toList.splitOn '\n')[line - 1]? = some text ∧
        f.lineAt offset = String.ofList text ∧ part <+: text ∧
        ∀ (sources : SourceSet) (span : Span), sources.file? span.file = some f →
          span.start = offset → excerpt sources span =
            let pad := blanks (toString line).length
            pad ++ "--> " ++ f.name ++ ":" ++ toString line ++ ":" ++ toString (utf8Len part + 1)
              ++ "\n" ++ pad ++ " |\n" ++ toString line ++ " | " ++ String.ofList text ++ "\n"
              ++ pad ++ " | " ++ blanks (utf8Len part)
              ++ String.ofList (List.replicate (max span.size 1) '^') ++ "\n" := by
  have hplace := lineAndColumn_eq h
  have htext := lineAt_eq h
  refine ⟨fun _ => lineStarts_le, hplace, _, h ▸ getElem?_splitOn before after, htext,
    List.prefix_append _ _, fun sources span hfile hstart => ?_⟩
  unfold excerpt SourceSet.locate?
  rw [hfile, hstart, Option.map_some, hplace]
  dsimp only
  rw [htext]
  rfl

theorem lookups_agree_script :
    let f : SourceFile := ⟨"top.sdc", "é\n\nset b\n"⟩
    f.content.toList = "é\n\nset ".toList ++ "b\n".toList ∧
      f.lineAndColumn 8 = (3, 5) ∧ f.lineAt 8 = "set b" ∧
      excerpt ⟨[f]⟩ ⟨0, 8, 9⟩ = " --> top.sdc:3:5\n  |\n3 | set b\n  |     ^\n" := by
  intro f
  have h : f.content.toList = "é\n\nset ".toList ++ "b\n".toList := by decide
  have hsplit : (f.content.toList.splitOn '\n')[2]? = some "set b".toList := by decide
  obtain ⟨-, hplace, text, htext, hline, -, hexcerpt⟩ := lookups_agree h
  obtain rfl := Option.some.inj (hsplit.symm.trans htext)
  exact ⟨h, hplace, hline, (hexcerpt ⟨[f]⟩ ⟨0, 8, 9⟩ rfl (by decide)).trans (by decide)⟩

end Diagnostic
end ClockTree
