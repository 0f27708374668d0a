import ClockTree.Name.Pattern

/-!
# Literal patterns

A text without characters that mean something to a pattern is a pattern for itself: it is read as
its characters one by one, and as the bytes of a text determine the text it matches no other name.
-/
namespace ClockTree
namespace Glob

def isMeta (c : Char) : Bool :=
  c == '?' || c == '*' || c == '[' || c == '\x7b' || c == '\x7d' || c == '\\'

theorem readFrom_literals (ts : List Token) {gs : List Group} {cs : List Char}
    (h : ∀ c ∈ cs, isMeta c = false ∧ (c = ',' → gs = [])) (before : Option Char)
    (rest : List Char) : ∃ before', readFrom ⟨ts, gs⟩ before (cs ++ rest) =
      readFrom ⟨(cs.map .literal).reverse ++ ts, gs⟩ before' rest := by
  induction cs generalizing ts before with
  | nil => exact ⟨before, rfl⟩
  | cons c cs ih =>
    obtain ⟨⟨hc, hcomma⟩, hcs⟩ := List.forall_mem_cons.mp h
    have hstep : readFrom ⟨ts, gs⟩ before (c :: (cs ++ rest)) =
        readFrom ⟨.literal c :: ts, gs⟩ (some c) (cs ++ rest) := by
      by_cases hsame : c = ','
      · obtain rfl := hcomma hsame
        subst hsame
        rw [readFrom]
        rfl
      · simp only [isMeta, Bool.or_eq_false_iff, beq_eq_false_iff_ne] at hc
        obtain ⟨⟨⟨⟨⟨h1, h2⟩, h3⟩, h4⟩, h5⟩, h6⟩ := hc
        rw [readFrom]
        · rfl
        all_goals simp_all
    obtain ⟨before', hrest⟩ := ih (.literal c :: ts) hcs (some c)
    refine ⟨before', ?_⟩
    rw [List.cons_append, hstep, hrest, List.map_cons, List.reverse_cons, List.append_assoc]
    rfl

theorem read_literal {s : String} (h : ∀ c ∈ s.toList, isMeta c = false) :
    read s = .ok (s.toList.map .literal) := by
  obtain ⟨before, hread⟩ := readFrom_literals [] (fun c hc => ⟨h c hc, fun _ => rfl⟩) none []
  rw [List.append_nil] at hread
  rw [read, hread, readFrom]
  simp [Progress.finish]

theorem read_braced {s : String} (h : ∀ c ∈ s.toList, isMeta c = false ∧ c ≠ ',') :
    read ("\x7b" ++ s ++ "\x7d") = .ok [.choice [s.toList.map .literal]] := by
  obtain ⟨before, hread⟩ := readFrom_literals [] (fun c hc =>
    ⟨(h c hc).1, fun same => absurd same (h c hc).2⟩) (some '\x7b') ['\x7d']
  have htext : ("\x7b" ++ s ++ "\x7d").toList = '\x7b' :: (s.toList ++ ['\x7d']) := by simp
  have hopen : Progress.openGroup ⟨[], []⟩ = ⟨[], [⟨[], []⟩]⟩ := rfl
  rw [read, htext, readFrom, hopen, hread, readFrom]
  simp [Progress.closeGroup, readFrom, Progress.finish]

theorem read_unopened {s : String} (h : ∀ c ∈ s.toList, isMeta c = true → c = '\x7d')
    (hclose : '\x7d' ∈ s.toList) : read s = .error .unopenedGroup := by
  obtain ⟨cs, rest, htext, hfirst⟩ := List.eq_append_cons_of_mem hclose
  have hcs : ∀ c ∈ cs, isMeta c = false ∧ (c = ',' → ([] : List Group) = []) := fun c hc =>
    ⟨Bool.eq_false_iff.mpr fun hmeta => hfirst
      (h c (htext ▸ List.mem_append_left _ hc) hmeta ▸ hc), fun _ => rfl⟩
  obtain ⟨before, hread⟩ := readFrom_literals [] hcs none ('\x7d' :: rest)
  rw [read, htext, hread, readFrom]
  rfl

theorem foldl_step_nil (bs : Array UInt8) (l : List UInt8) :
    l.foldl (fun is b => step (· == b) bs is) [] = [] := by
  induction l with
  | nil => rfl
  | cons b l ih => exact ih

theorem foldl_step (bs : Array UInt8) (l : List UInt8) (i : Nat) :
    l.foldl (fun is b => step (· == b) bs is) [i] =
      if l <+: bs.toList.drop i then [i + l.length] else [] := by
  induction l generalizing i with
  | nil => simp
  | cons b l ih =>
    have hstep : step (· == b) bs [i] = if bs.toList[i]? = some b then [i + 1] else [] := by
      cases hb : bs[i]? with
      | none => simp [step, hb]
      | some a => by_cases hab : a = b <;> simp [step, hb, hab]
    have hstarts : b :: l <+: bs.toList.drop i ↔
        bs.toList[i]? = some b ∧ l <+: bs.toList.drop (i + 1) := by
      cases hdrop : bs.toList.drop i with
      | nil =>
        have hnone : bs.toList[i]? = none := by
          rw [List.getElem?_eq_none_iff]
          exact List.drop_eq_nil_iff.mp hdrop
        simp [hnone]
      | cons a rest =>
        have hsome : bs.toList[i]? = some a := by
          rw [← List.head?_drop, hdrop]
          rfl
        have htail : bs.toList.drop (i + 1) = rest := by
          rw [← List.tail_drop, hdrop]
          rfl
        rw [hsome, htail, List.cons_prefix_cons, Option.some.injEq]
        exact and_congr_left fun _ => eq_comm
    rw [List.foldl_cons, hstep]
    by_cases hb : bs.toList[i]? = some b
    · rw [if_pos hb, ih]
      simp only [hstarts, hb, true_and, List.length_cons]
      congr 2
      omega
    · rw [if_neg hb, foldl_step_nil, if_neg fun hp => hb (hstarts.mp hp).1]

theorem sequenceAfter_literals (bs : Array UInt8) (cs : List Char) (ends : List Nat) :
    sequenceAfter bs ends (cs.map .literal) =
      (cs.flatMap String.utf8EncodeChar).foldl (fun is b => step (· == b) bs is) ends := by
  induction cs generalizing ends with
  | nil => rfl
  | cons c cs ih =>
    rw [List.map_cons, sequenceAfter, ih, List.flatMap_cons, List.foldl_append, Token.after]

theorem utf8_toList (s : String) : s.toUTF8.data.toList = s.toList.flatMap String.utf8EncodeChar := by
  rw [String.toUTF8_eq_toByteArray, ← String.utf8Encode_toList, List.utf8Encode]
  simp

theorem accepts_literals {s name : String} :
    Pattern.accepts (s.toList.map .literal) name = true ↔ name = s := by
  have hbytes : Pattern.accepts (s.toList.map .literal) name =
      ((sequenceAfter name.toUTF8.data [0] (s.toList.map .literal)).getLast? ==
        some name.toUTF8.data.size) := by
    unfold Pattern.accepts Pattern.acceptsBytes
    split
    · rename_i h
      cases hs : s.toList <;> simp [hs] at h
    · rfl
  rw [hbytes, sequenceAfter_literals, foldl_step, ← utf8_toList, List.drop_zero]
  constructor
  · intro h
    split at h
    · rename_i hstarts
      have hlength : s.toUTF8.data.toList.length = name.toUTF8.data.toList.length := by
        simpa using h
      have hdata := hstarts.eq_of_length hlength
      have hsame : s.toByteArray = name.toByteArray := by
        rw [← String.toUTF8_eq_toByteArray, ← String.toUTF8_eq_toByteArray]
        exact ByteArray.ext (Array.toList_inj.mp hdata)
      exact (String.toByteArray_inj.mp hsame).symm
    · simp at h
  · intro same
    subst same
    simp

theorem accepts_braced {s name : String} (hne : s ≠ "") :
    Pattern.accepts [.choice [s.toList.map .literal]] name = true ↔ name = s := by
  rw [← accepts_literals]
  obtain ⟨c, cs, hs⟩ := List.exists_cons_of_ne_nil (l := s.toList) (by simpa using hne)
  have hsome : emptySequence ((c :: cs).map .literal) = false := by
    simp [emptySequence, Token.isVoid]
  have hafter : ∀ bs ends, Token.after bs ends (.choice [(c :: cs).map .literal]) =
      sequenceAfter bs ends ((c :: cs).map .literal) := fun bs ends => by
    simp only [Token.after, emptyBranches, branchesAfter, hsome, Bool.false_and, Bool.false_eq_true,
      if_false]
    cases sequenceAfter bs ends ((c :: cs).map .literal) <;> simp [union]
  have hchoice : Pattern.accepts [.choice [(c :: cs).map .literal]] name =
      ((sequenceAfter name.toUTF8.data [0] ((c :: cs).map .literal)).getLast? ==
        some name.toUTF8.data.size) := by
    rw [← hafter]
    rfl
  rw [hs, hchoice]
  rfl

end Glob

namespace NamePattern

def IsLiteral (s : String) : Prop := s ≠ "" ∧ ∀ c ∈ s.toList, Glob.isMeta c = false

def literal (s : String) : NamePattern := ⟨s, some (s.toList.map .literal)⟩

theorem read_of_isLiteral {s : String} (h : IsLiteral s) : read s = .ok (literal s) := by
  have hstar : s ≠ "*" := by
    intro same
    subst same
    exact absurd (h.2 '*' (by decide)) (by decide)
  rw [read, if_neg (by simp [h.1, hstar]), Glob.read_literal h.2]
  rfl

theorem source_of_read {s : String} {p : NamePattern} (h : read s = .ok p) : p.source = s := by
  unfold read at h
  split at h
  · exact Except.ok.inj h ▸ rfl
  · split at h
    · exact Except.ok.inj h ▸ rfl
    · cases h

theorem isLiteral_iff {p : NamePattern} :
    p.isLiteral = true ↔ p.source ≠ "" ∧ ∀ c ∈ p.source.toList, c ∉ metaChars := by
  simp [isLiteral]

/-- Of the characters that mean something to a pattern, the check for a literal pattern leaves out
the closing brace; where nothing is open such a brace is refused. -/
theorem isMeta_iff {c : Char} : Glob.isMeta c = true ↔ c ∈ metaChars ∨ c = '\x7d' := by
  simp only [Glob.isMeta, metaChars, Bool.or_eq_true, beq_iff_eq, List.mem_cons, List.not_mem_nil]
  grind

theorem exists_isLiteral_iff {s : String} :
    (∃ p, read s = .ok p ∧ p.isLiteral = true) ↔ IsLiteral s := by
  constructor
  · rintro ⟨p, hread, hliteral⟩
    obtain ⟨hne, hplain⟩ := isLiteral_iff.mp hliteral
    rw [source_of_read hread] at hne hplain
    have hbrace : ∀ c ∈ s.toList, Glob.isMeta c = true → c = '\x7d' := fun c hc hmeta =>
      (isMeta_iff.mp hmeta).resolve_left (hplain c hc)
    refine ⟨hne, fun c hc => Bool.eq_false_iff.mpr fun hmeta => ?_⟩
    have hclose := hbrace c hc hmeta ▸ hc
    have hstar : s ≠ "*" := by
      rintro rfl
      exact absurd hclose (by decide)
    rw [read, if_neg (not_or.mpr ⟨hne, hstar⟩), Glob.read_unopened hbrace hclose] at hread
    cases hread
  · intro h
    refine ⟨literal s, read_of_isLiteral h, isLiteral_iff.mpr ⟨h.1, fun c hc hmem => ?_⟩⟩
    have hmeta := isMeta_iff.mpr (Or.inl hmem)
    rw [h.2 c hc] at hmeta
    cases hmeta

def braced (s : String) : NamePattern :=
  ⟨"\x7b" ++ s ++ "\x7d", some [.choice [s.toList.map .literal]]⟩

theorem read_braced {s : String} (h : ∀ c ∈ s.toList, Glob.isMeta c = false ∧ c ≠ ',') :
    read ("\x7b" ++ s ++ "\x7d") = .ok (braced s) := by
  have hfirst : ∀ t : String, t.toList.head? ≠ some '\x7b' → "\x7b" ++ s ++ "\x7d" ≠ t := by
    rintro t ht rfl
    simp at ht
  rw [read, if_neg (not_or.mpr ⟨hfirst _ (by decide), hfirst _ (by decide)⟩), Glob.read_braced h]
  rfl

theorem braced_accepts {s name : String} (hne : s ≠ "") :
    (braced s).accepts name = true ↔ name = s := Glob.accepts_braced hne

theorem literal_accepts {s name : String} : (literal s).accepts name = true ↔ name = s :=
  Glob.accepts_literals

theorem isLiteral_accepts {s : String} {p : NamePattern} (h : read s = .ok p)
    (hliteral : p.isLiteral = true) (name : String) : p.accepts name = true ↔ name = s := by
  have hself := read_of_isLiteral (exists_isLiteral_iff.mp ⟨p, h, hliteral⟩)
  obtain rfl := Except.ok.inj (h.symm.trans hself)
  exact literal_accepts

theorem isLiteral_accepts_stray :
    let s := "é//d3],!-^"
    read s = .ok (literal s) ∧ (literal s).isLiteral = true ∧ (literal s).accepts s = true ∧
      (literal s).accepts "é/d3],!-^" = false := by
  intro s
  have hplain : s.toList.all (Glob.isMeta · == false) = true := by decide
  have hread : read s = .ok (literal s) :=
    read_of_isLiteral ⟨by decide, fun c hc => eq_of_beq (List.all_eq_true.mp hplain c hc)⟩
  have hliteral : (literal s).isLiteral = true := by decide
  exact ⟨hread, hliteral, (isLiteral_accepts hread hliteral s).mpr rfl,
    Bool.eq_false_iff.mpr fun h => absurd ((isLiteral_accepts hread hliteral _).mp h) (by decide)⟩

end NamePattern
end ClockTree
