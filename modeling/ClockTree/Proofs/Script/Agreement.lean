import ClockTree.Proofs.Script.Coverage
import ClockTree.Proofs.Script.Quoting
import Mathlib.Data.List.Infix

/-!
# Splitter and tokenizer

The splitter knows escapes and keeps count of braces, brackets and quotes together, one within the
other. The tokenizer knows no escapes, opens an enclosure only where a word begins, and counts only
the delimiters of the enclosure that it is in. On a text in which these rules come to the same, a
command that the splitter takes for closed has no enclosure that the tokenizer finds open.
-/
namespace ClockTree.Script

/-! ### Enclosures of the splitter -/

def Enclosure.Within : Enclosure → Nesting → Prop
  | .brace, n => 0 < n.braces ∧ n.brackets = 0 ∧ n.quoted = false
  | .bracket, n => 0 < n.brackets
  | .quote, n => n = ⟨0, 0, true⟩

namespace Enclosure
variable {e : Enclosure} {n : Nesting}

theorem within_ne_outside (h : e.Within n) : n ≠ .outside := by
  rintro rfl
  cases e with
  | brace => exact Nat.lt_irrefl 0 h.1
  | bracket => exact Nat.lt_irrefl 0 h
  | quote => simp [Within, Nesting.outside] at h

theorem within_opening (e : Enclosure) : e.Within (Nesting.outside.track e.opening) := by
  cases e with
  | brace => exact ⟨Nat.one_pos, rfl, rfl⟩
  | bracket => exact Nat.one_pos
  | quote => rfl

theorem within_track (h : e.Within n) (c : Char) :
    e.Within (n.track c) ∨ c = e.closing ∧ n.track c = .outside := by
  obtain ⟨braces, brackets, quoted⟩ := n
  simp only [Nesting.track, Scan.track, Nesting.outside, Nesting.mk.injEq]
  cases e with
  | brace =>
    obtain ⟨hbraces, rfl, rfl⟩ := h
    simp only [Within, closing]
    split_ifs <;> grind
  | bracket =>
    simp only [Within, closing] at h ⊢
    split_ifs <;> grind
  | quote =>
    obtain ⟨rfl, rfl, rfl⟩ := h
    simp only [Within, closing]
    split_ifs <;> grind

theorem exists_closing (h : e.Within n) {cs : List Char} (hend : n.after cs = .outside) :
    ∃ inside rest, cs = inside ++ e.closing :: rest ∧ (∀ x, x <+: inside → e.Within (n.after x)) ∧
      (n.after inside).track e.closing = .outside ∧
      ∀ x, n.after (inside ++ e.closing :: x) = Nesting.outside.after x := by
  have hclosing : e.closing ≠ '\\' := by cases e <;> decide
  fun_induction n.after cs with
  | case1 n => exact absurd hend (within_ne_outside h)
  | case2 n c cs ih =>
    obtain ⟨inside, rest, rfl, hwithin, htrack, hafter⟩ := ih h hend
    refine ⟨'\\' :: c :: inside, rest, rfl, ?_, htrack, hafter⟩
    exact forall_prefix_cons.mpr ⟨h, forall_prefix_cons.mpr ⟨h, hwithin⟩⟩
  | case3 n c cs hsingle ih =>
    obtain hwithin | ⟨rfl, houtside⟩ := within_track h c
    · obtain ⟨inside, rest, rfl, hinside, htrack, hafter⟩ := ih hwithin hend
      have hescape : c ≠ '\\' := by
        rintro rfl
        cases inside with
        | nil => exact hsingle _ _ rfl rfl
        | cons d inside => exact hsingle _ _ rfl rfl
      refine ⟨c :: inside, rest, rfl, forall_prefix_cons.mpr ⟨h, fun x hx => ?_⟩, ?_, fun x => ?_⟩
      · rw [Nesting.after_plain n hescape]
        exact hinside x hx
      · rwa [Nesting.after_plain n hescape]
      · rw [List.cons_append, Nesting.after_plain n hescape, hafter x]
    · refine ⟨[], cs, rfl, fun x hx => ?_, houtside, fun x => ?_⟩
      · obtain rfl := List.prefix_nil.mp hx
        exact h
      · rw [List.nil_append, Nesting.after_plain n hclosing, houtside]

end Enclosure

def Nesting.lift (n : Nesting) : Nesting := { n with brackets := n.brackets + 1 }

namespace Nesting

theorem lift_track {n : Nesting} {c : Char} (h : 0 < (n.lift.track c).brackets) :
    n.lift.track c = (n.track c).lift := by
  obtain ⟨braces, brackets, quoted⟩ := n
  simp only [lift, track, Scan.track] at h ⊢
  split_ifs at h ⊢ <;> grind

theorem lift_after {n : Nesting} {cs : List Char}
    (h : ∀ x, x <+: cs → 0 < (n.lift.after x).brackets) : n.lift.after cs = (n.after cs).lift := by
  fun_induction n.after cs with
  | case1 => rfl
  | case2 n c cs ih =>
    exact ih (forall_prefix_cons.mp (forall_prefix_cons.mp h).2).2
  | case3 n c cs hsingle ih =>
    by_cases hescape : c = '\\'
    · subst hescape
      obtain rfl : cs = [] := by
        cases cs with
        | nil => rfl
        | cons d cs => exact (hsingle d cs rfl rfl).elim
      rfl
    · simp only [forall_prefix_cons, after_plain _ hescape] at h
      have htrack := lift_track (h.2 [] List.nil_prefix)
      rw [after_plain _ hescape, htrack]
      exact ih fun x hx => htrack ▸ h.2 x hx

theorem eq_outside_of_lift {n : Nesting} (h : n.lift.track Enclosure.bracket.closing = .outside) :
    n = .outside := by
  obtain ⟨braces, brackets, quoted⟩ := n
  simp only [lift, track, Scan.track, Enclosure.closing, outside, mk.injEq] at h ⊢
  split_ifs at h <;> grind

theorem after_bracket {inside : List Char}
    (h : ∀ x, x <+: inside → Enclosure.bracket.Within (outside.lift.after x))
    (hclosed : (outside.lift.after inside).track Enclosure.bracket.closing = .outside) :
    outside.after inside = .outside := by
  rw [lift_after h] at hclosed
  exact eq_outside_of_lift hclosed

end Nesting

/-! ### Texts that both read alike -/

/-- The text stands for these tokens, and behind it a word begins. -/
def Completes (cs : List Char) (ts : List Token) : Prop :=
  ∀ rest, tokensOf (cs ++ rest) = (tokensOf rest).map (ts ++ ·)

def AtWord (cs : List Char) : Prop := ∃ ts, Completes cs ts

/-- For the splitter an enclosure begins and ends around the text, with nothing open before and
after. -/
def Encloses (e : Enclosure) (inside : List Char) : Prop :=
  (∀ x, x <+: inside → Nesting.outside.after (e.opening :: x) ≠ .outside) ∧
    Nesting.outside.after (e.opening :: (inside ++ [e.closing])) = .outside

def Bare (word : List Char) : Prop :=
  ∃ c cs, word = c :: cs ∧ Enclosure.ofOpening? c = none ∧ ∀ b ∈ word, Text.isBlank b = false

/-- The rules of the splitter and of the tokenizer come to the same: what an enclosure at the
beginning of a word encloses for the splitter is balanced when all its delimiters count, also those
behind a backslash and those within other enclosures, and a bare word leaves nothing open. -/
structure Consistent (t : List Char) : Prop where
  enclosed : ∀ {before e inside after}, t = before ++ e.opening :: (inside ++ e.closing :: after) →
    AtWord before → Nesting.outside.after before = .outside → Encloses e inside → e.balances 0 inside
  bare : ∀ {before word c after}, t = before ++ (word ++ c :: after) →
    AtWord before → Nesting.outside.after before = .outside → Bare word → Text.isBlank c →
      Nesting.outside.after (word ++ [c]) = .outside

instance (e : Enclosure) (inside : List Char) : Decidable (Encloses e inside) :=
  decidable_of_iff ((∀ x ∈ inside.inits, Nesting.outside.after (e.opening :: x) ≠ .outside) ∧
      Nesting.outside.after (e.opening :: (inside ++ [e.closing])) = .outside) <| by
    simp only [Encloses, List.mem_inits]

theorem Consistent.of_tails {t : List Char}
    (henclosed : ∀ s ∈ t.tails, ∀ e ∈ [Enclosure.brace, .bracket, .quote], ∀ inside ∈ s.tail.inits,
      e.opening :: (inside ++ [e.closing]) <+: s → Encloses e inside → e.balances 0 inside)
    (hbare : ∀ s ∈ t.tails, ∀ word ∈ s.inits, word.all (!Text.isBlank ·) →
      word.head?.bind Enclosure.ofOpening? = none → Nesting.outside.after word = .outside) :
    Consistent t where
  enclosed := by
    rintro before e inside after rfl - -
    have hmem : e ∈ [Enclosure.brace, .bracket, .quote] := by cases e <;> decide
    refine henclosed _ ((List.mem_tails _ _).mpr (List.suffix_append _ _)) e hmem inside ?_ ?_
    · exact (List.mem_inits _ _).mpr (List.prefix_append _ _)
    · exact ⟨after, by simp⟩
  bare := by
    rintro before word c after rfl - - ⟨b, cs, rfl, hopening, hblank⟩ hc
    have houtside := hbare _ ((List.mem_tails _ _).mpr (List.suffix_append _ _)) (b :: cs)
      ((List.mem_inits _ _).mpr (List.prefix_append _ _)) (by simpa using hblank)
      (by simpa using hopening)
    rw [Nesting.after_append_blank (List.forall_mem_singleton.mpr hc), houtside]

namespace Completes
variable {cs ds word : List Char} {ts us : List Token} {c : Char} {e : Enclosure}

theorem nil : Completes [] [] := by
  intro rest
  rw [List.nil_append]
  cases tokensOf rest <;> rfl

theorem append (h : Completes cs ts) (h' : Completes ds us) : Completes (cs ++ ds) (ts ++ us) := by
  intro rest
  rw [List.append_assoc, h, h']
  cases tokensOf rest <;> simp [Except.map]

theorem blank (hc : Text.isBlank c) : Completes [c] [] := by
  intro rest
  rw [List.singleton_append, tokensOf, tokensFrom, if_pos hc, tokensOf]
  cases tokensFrom .between rest <;> rfl

theorem enclosed (h : e.balances 0 cs) :
    Completes (e.opening :: (cs ++ [e.closing])) [e.token cs] := by
  intro rest
  have hopening : Text.isBlank e.opening = false ∧ Enclosure.ofOpening? e.opening = some e := by
    cases e <;> decide
  have htext : e.opening :: (cs ++ [e.closing]) ++ rest = e.opening :: (cs ++ e.closing :: rest) := by
    simp
  rw [htext, tokensOf, tokensFrom, if_neg (by simp [hopening.1]), hopening.2]
  exact tokensFrom_balanced h [] rest

theorem bare (h : Bare word) (hc : Text.isBlank c) : Completes (word ++ [c]) [.word word] := by
  obtain ⟨b, cs, rfl, hopening, hblank⟩ := h
  obtain ⟨hb, hcs⟩ := List.forall_mem_cons.mp hblank
  intro rest
  rw [List.append_assoc, List.cons_append, tokensOf, tokensFrom, if_neg (by simp [hb]), hopening]
  dsimp only
  rw [tokensFrom_bare hcs, List.singleton_append, tokensFrom, if_pos hc, tokensOf]
  simp

end Completes

theorem Consistent.rest {cs t : List Char} (h : Consistent (cs ++ t)) (hcs : AtWord cs)
    (hnested : ∀ x, Nesting.outside.after (cs ++ x) = Nesting.outside.after x) : Consistent t where
  enclosed := by
    rintro before e inside after rfl ⟨us, hus⟩ hbefore
    obtain ⟨ts, hts⟩ := hcs
    exact h.enclosed (List.append_assoc ..).symm ⟨_, hts.append hus⟩ ((hnested before).trans hbefore)
  bare := by
    rintro before word c after rfl ⟨us, hus⟩ hbefore
    obtain ⟨ts, hts⟩ := hcs
    exact h.bare (List.append_assoc ..).symm ⟨_, hts.append hus⟩ ((hnested before).trans hbefore)

theorem eq_opening {c : Char} {e : Enclosure} (h : Enclosure.ofOpening? c = some e) :
    c = e.opening := by
  unfold Enclosure.ofOpening? at h
  split_ifs at h <;> obtain rfl := Option.some.inj h <;> assumption

theorem exists_run (cs : List Char) : ∃ run, (∀ b ∈ run, Text.isBlank b = false) ∧
    (cs = run ∨ ∃ b rest, Text.isBlank b ∧ cs = run ++ b :: rest) := by
  induction cs with
  | nil => exact ⟨[], by simp, Or.inl rfl⟩
  | cons c cs ih =>
    by_cases hc : Text.isBlank c
    · exact ⟨[], by simp, Or.inr ⟨c, cs, hc, rfl⟩⟩
    · obtain ⟨run, hrun, hcs⟩ := ih
      refine ⟨c :: run, List.forall_mem_cons.mpr ⟨Bool.eq_false_iff.mpr hc, hrun⟩, ?_⟩
      obtain rfl | ⟨b, rest, hb, rfl⟩ := hcs
      · exact Or.inl rfl
      · exact Or.inr ⟨b, rest, hb, rfl⟩

theorem tokensOf_bare {word : List Char} (h : Bare word) : tokensOf word = .ok [.word word] := by
  obtain ⟨c, cs, rfl, hopening, hblank⟩ := h
  obtain ⟨hc, hcs⟩ := List.forall_mem_cons.mp hblank
  rw [tokensOf, tokensFrom, if_neg (by simp [hc]), hopening]
  dsimp only
  rw [← List.append_nil cs, tokensFrom_bare hcs]
  simp [tokensFrom]

/-- What stands between the brackets of these tokens closes what it opens. -/
def Closing (ts : List Token) : Prop :=
  ∀ inside, .bracket inside ∈ ts → Nesting.outside.after inside = .outside

/-- The text stands for these tokens at the beginning of a longer one, and with nothing open before
it nothing is open behind it. -/
structure Leading (cs : List Char) (ts : List Token) : Prop where
  ne_nil : cs ≠ []
  completes : Completes cs ts
  after : ∀ x, Nesting.outside.after (cs ++ x) = Nesting.outside.after x
  closing : Closing ts

theorem Leading.blank {c : Char} (hc : Text.isBlank c) : Leading [c] [] where
  ne_nil := List.cons_ne_nil c []
  completes := .blank hc
  after := Nesting.after_blank (List.forall_mem_singleton.mpr hc) _
  closing inside hmem := by cases hmem

theorem exists_leading_enclosed {e : Enclosure} {cs : List Char}
    (hnested : Nesting.outside.after (e.opening :: cs) = .outside)
    (h : Consistent (e.opening :: cs)) :
    ∃ inside rest, cs = inside ++ e.closing :: rest ∧
      Leading (e.opening :: (inside ++ [e.closing])) [e.token inside] := by
  have hescape : e.opening ≠ '\\' := by cases e <;> decide
  rw [Nesting.after_plain _ hescape] at hnested
  obtain ⟨inside, rest, rfl, hwithin, hclosing, hafter⟩ :=
    Enclosure.exists_closing e.within_opening hnested
  have hencloses : Encloses e inside := by
    refine ⟨fun x hx => ?_, ?_⟩
    · rw [Nesting.after_plain _ hescape]
      exact Enclosure.within_ne_outside (hwithin x hx)
    · rw [Nesting.after_plain _ hescape, hafter []]
      rfl
  have hbalances := h.enclosed (List.nil_append _).symm ⟨[], .nil⟩ rfl hencloses
  refine ⟨inside, rest, rfl, List.cons_ne_nil _ _, .enclosed hbalances, fun x => ?_,
    fun inside' hmem => ?_⟩
  · rw [List.cons_append, Nesting.after_plain _ hescape, List.append_assoc]
    exact hafter x
  · have htoken := List.mem_singleton.mp hmem
    cases e with
    | bracket =>
      obtain rfl := Token.bracket.inj htoken
      exact Nesting.after_bracket hwithin hclosing
    | brace | quote => cases htoken

theorem Leading.bare {word rest : List Char} {b : Char} (hword : Bare word) (hb : Text.isBlank b)
    (h : Consistent (word ++ b :: rest)) : Leading (word ++ [b]) [.word word] where
  ne_nil := List.append_ne_nil_of_right_ne_nil _ (List.cons_ne_nil b [])
  completes := .bare hword hb
  after x := by
    have houtside := h.bare (List.nil_append _).symm ⟨[], .nil⟩ rfl hword hb
    have hlast : (word ++ [b]).getLast? ≠ some '\\' := by
      rw [List.getLast?_concat]
      rintro ⟨⟩
      exact absurd hb (by decide)
    rw [Nesting.after_append hlast, houtside]
  closing inside hmem := by simp at hmem

theorem exists_leading {t : List Char} (hne : t ≠ [])
    (hnested : Nesting.outside.after t = .outside) (h : Consistent t) :
    Bare t ∨ ∃ cs rest ts, t = cs ++ rest ∧ Leading cs ts := by
  obtain ⟨c, cs, rfl⟩ := List.exists_cons_of_ne_nil hne
  by_cases hblank : Text.isBlank c
  · exact Or.inr ⟨[c], cs, [], rfl, .blank hblank⟩
  · rw [Bool.not_eq_true] at hblank
    cases hopening : Enclosure.ofOpening? c with
    | some e =>
      obtain rfl := eq_opening hopening
      obtain ⟨inside, rest, rfl, hleading⟩ := exists_leading_enclosed hnested h
      exact Or.inr ⟨_, rest, _, by simp, hleading⟩
    | none =>
      obtain ⟨run, hrun, hcs⟩ := exists_run cs
      have hbare : Bare (c :: run) :=
        ⟨c, run, rfl, hopening, List.forall_mem_cons.mpr ⟨hblank, hrun⟩⟩
      obtain rfl | ⟨b, rest, hb, rfl⟩ := hcs
      · exact Or.inl hbare
      · exact Or.inr ⟨_, rest, _, by simp, .bare hbare hb h⟩

theorem tokensOf_consistent {t : List Char} (hnested : Nesting.outside.after t = .outside)
    (h : Consistent t) : ∃ ts, tokensOf t = .ok ts ∧ Closing ts := by
  induction hn : t.length using Nat.strong_induction_on generalizing t with
  | _ n ih =>
    subst hn
    by_cases hempty : t = []
    · exact ⟨[], by rw [hempty]; rfl, by simp [Closing]⟩
    · obtain hbare | ⟨cs, rest, ts, rfl, hleading⟩ := exists_leading hempty hnested h
      · exact ⟨_, tokensOf_bare hbare, by simp [Closing]⟩
      · have hshorter : rest.length < (cs ++ rest).length := by
          simp [List.length_pos_iff.mpr hleading.ne_nil]
        obtain ⟨us, hus, hrest⟩ := ih rest.length hshorter
          ((hleading.after rest).symm.trans hnested)
          (h.rest ⟨ts, hleading.completes⟩ hleading.after) rfl
        refine ⟨ts ++ us, by rw [hleading.completes, hus]; rfl, fun inside hmem => ?_⟩
        exact (List.mem_append.mp hmem).elim (hleading.closing inside) (hrest inside)

theorem Span.nesting {before inside after : List Char} {st : Statement}
    (h : Span before inside after st) (n : Nesting) : n.after st.text = n.after inside := by
  obtain ⟨lead, hlead, htext⟩ := h.text
  obtain ⟨blanks, hblanks, hblank⟩ := Text.exists_trimEnd (lead ++ joined inside)
  rw [htext, ← n.after_append_blank hblank (Text.trimEnd (lead ++ joined inside)), ← hblanks,
    n.after_blank hlead, n.after_joined]

/-- A command that ends with nothing open in front of a newline or a semicolon. -/
def Closed (source : String) (st : Statement) : Prop :=
  ∃ before inside gap c after, source.toList = before ++ inside ++ gap ++ c :: after ∧
    st.start = String.utf8Len before ∧ st.stop = String.utf8Len (before ++ inside) ∧ Gap gap ∧
      (c = '\n' ∨ c = ';') ∧ Nesting.outside.after inside = .outside

theorem closed_or_last {source : String} {st : Statement} (hst : st ∈ split source) :
    Closed source st ∨ ∃ before inside gap, source.toList = before ++ inside ++ gap ∧
      st.start = String.utf8Len before ∧ st.stop = String.utf8Len (before ++ inside) ∧ Gap gap := by
  obtain ⟨before, inside, after, hsource, hspan⟩ := (split_covered source).spans st hst
  have hstart := hspan.start
  have hstop := hspan.stop
  obtain ⟨gap, rest, rfl, hgap, rfl | ⟨hnested, c, rest', rfl, hc⟩⟩ := hspan.ended
  · exact Or.inr ⟨before, inside, gap, by simpa using hsource, hstart, hstop, hgap⟩
  · exact Or.inl
      ⟨before, inside, gap, c, rest', by simpa using hsource, hstart, hstop, hgap, hc, hnested⟩

theorem eq_of_utf8Len {a b c d : List Char} (h : a ++ b = c ++ d)
    (hlength : String.utf8Len a = String.utf8Len c) : a = c := by
  obtain ⟨x, rfl, -⟩ | ⟨x, rfl, -⟩ := List.append_eq_append_iff.mp h
  · rw [String.utf8Len_append, Nat.left_eq_add, String.utf8Len_eq_zero] at hlength
    rw [hlength, List.append_nil]
  · rw [String.utf8Len_append, Nat.add_eq_left, String.utf8Len_eq_zero] at hlength
    rw [hlength, List.append_nil]

theorem Closed.nesting {source : String} {st : Statement} (hst : st ∈ split source)
    (h : Closed source st) : Nesting.outside.after st.text = .outside := by
  obtain ⟨before, inside, after, hsource, hspan⟩ := (split_covered source).spans st hst
  obtain ⟨before', inside', gap, c, after', hsource', hstart, hstop, -, -, hnested⟩ := h
  have hsame : before ++ (inside ++ after) = before' ++ (inside' ++ (gap ++ c :: after')) := by
    simpa [hsource] using hsource'
  rw [hspan.start, List.nil_append] at hstart
  obtain rfl := eq_of_utf8Len hsame hstart
  rw [hspan.stop, List.nil_append, String.utf8Len_append, String.utf8Len_append,
    Nat.add_left_cancel_iff] at hstop
  obtain rfl := eq_of_utf8Len (List.append_cancel_left hsame) hstop
  rw [hspan.nesting, hnested]

/-- The tokenizer misses no delimiter in a closed command, nor in what stands between its brackets,
if in these texts the rules of the splitter and its own come to the same. -/
theorem tokensOf_split {source : String} {st : Statement} (hst : st ∈ split source)
    (hclosed : Closed source st) (h : Consistent st.text) :
    ∃ ts, tokensOf st.text = .ok ts ∧ ∀ inside, .bracket inside ∈ ts → Consistent inside →
      ∃ us, tokensOf inside = .ok us := by
  obtain ⟨ts, hts, hinside⟩ := tokensOf_consistent (hclosed.nesting hst) h
  refine ⟨ts, hts, fun inside hmem hconsistent => ?_⟩
  obtain ⟨us, hus, -⟩ := tokensOf_consistent (hinside inside hmem) hconsistent
  exact ⟨us, hus⟩

theorem tokensOf_split_query :
    let source := "get_clocks \x7ba b\x7d [get_ports c]\n"
    let st : Statement := ⟨"get_clocks \x7ba b\x7d [get_ports c]".toList, 0, 30⟩
    st ∈ split source ∧ Closed source st ∧ Consistent st.text ∧
      ∃ ts, tokensOf st.text = .ok ts ∧ ∀ inside, .bracket inside ∈ ts → Consistent inside →
        ∃ us, tokensOf inside = .ok us := by
  intro source st
  have hst : st ∈ split source := by decide +kernel
  have hclosed : Closed source st :=
    ⟨[], st.text, [], '\n', [], by decide +kernel, rfl, by decide +kernel, .nil, Or.inl rfl,
      by decide +kernel⟩
  have hconsistent : Consistent st.text := .of_tails (by decide +kernel) (by decide +kernel)
  exact ⟨hst, hclosed, hconsistent, tokensOf_split hst hclosed hconsistent⟩

/-- For the splitter an escaped brace and a bracket within braces are characters like others, and a
quote within a bare word begins an enclosure. -/
theorem tokensOf_split_misses :
    let misses (source : String) (e : Enclosure) : Prop :=
      ∃ st ∈ split source, Closed source st ∧ tokensOf st.text = .error e
    misses "x \x7b\\\x7b\x7d\n" .brace ∧ misses "x [a \x7b[\x7d b]\n" .bracket ∧
      misses "x a\" \"b\n" .quote ∧
      ∃ st ∈ split "x [a \x7b]\x7d b]\n", Closed "x [a \x7b]\x7d b]\n" st ∧ ∃ ts inside,
        tokensOf st.text = .ok ts ∧ .bracket inside ∈ ts ∧ tokensOf inside = .error .brace := by
  intro misses
  have hclosed : ∀ cs : List Char, Nesting.outside.after cs = .outside →
      Closed (String.ofList (cs ++ ['\n'])) ⟨cs, 0, String.utf8Len cs⟩ := fun cs hcs =>
    ⟨[], cs, [], '\n', [], by simp, rfl, by simp, .nil, Or.inl rfl, hcs⟩
  refine ⟨⟨_, ?_, hclosed "x \x7b\\\x7b\x7d".toList (by decide +kernel), rfl⟩,
    ⟨_, ?_, hclosed "x [a \x7b[\x7d b]".toList (by decide +kernel), rfl⟩,
    ⟨_, ?_, hclosed "x a\" \"b".toList (by decide +kernel), rfl⟩,
    ⟨_, ?_, hclosed "x [a \x7b]\x7d b]".toList (by decide +kernel), _, "a \x7b".toList, rfl, ?_, rfl⟩⟩
  all_goals decide +kernel

end ClockTree.Script
