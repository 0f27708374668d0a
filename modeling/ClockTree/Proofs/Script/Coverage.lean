import ClockTree.Proofs.Script.Glyphs
import ClockTree.Proofs.Text.Trim

/-!
# What a script is split into

Every command of a script has a span of the source. The spans follow one another, between them
stands nothing but white space, separators, comments and joined lines, and the text of a command is
what stands in its span, with its lines joined.
-/
namespace ClockTree.Script

/-! ### What stands outside the commands -/

def InJoint (before : List Char) (c : Char) (after : List Char) : Prop :=
  ∃ a x y b, before = a ++ x ∧ after = y ++ b ∧ Joint (x ++ c :: y)

def Point.TopLevel (p : Point) : Prop := p = .start ∨ p = .inside .outside

/-- A character of a script that belongs to no command. -/
inductive Spare (before : List Char) (c : Char) (after : List Char) : Prop
  | blank (h : Text.isBlank c)
  | semicolon (h : c = ';') (htop : (Point.start.after before).TopLevel)
  | comment (a b : List Char) (h : before ++ [c] = a ++ '#' :: b)
    (hstart : Point.start.after a = .start) (hline : '\n' ∉ b)
  | joint (h : InJoint before c after)

def Gap (cs : List Char) : Prop := ∀ x c y, cs = x ++ c :: y → Text.isBlank c ∨ InJoint x c y

theorem split_append {α : Type} {a b x y : List α} {c : α} (h : a ++ b = x ++ c :: y) :
    (∃ y', a = x ++ c :: y' ∧ y = y' ++ b) ∨ ∃ x', x = a ++ x' ∧ b = x' ++ c :: y := by
  obtain ⟨x', rfl, rfl⟩ | ⟨y', rfl, hy⟩ := List.append_eq_append_iff.mp h
  · exact Or.inr ⟨x', rfl, rfl⟩
  · cases y' with
    | nil => exact Or.inr ⟨[], by simp, by simpa using hy.symm⟩
    | cons d y' =>
      obtain ⟨rfl, rfl⟩ := List.cons.inj hy
      exact Or.inl ⟨y', rfl, rfl⟩

theorem InJoint.extend {x y : List Char} {c : Char} (h : InJoint x c y) (a b : List Char) :
    InJoint (a ++ x) c (y ++ b) := by
  obtain ⟨a', x, y, b', rfl, rfl, hjoint⟩ := h
  exact ⟨a ++ a', x, y, b' ++ b, by simp, by simp, hjoint⟩

namespace Gap
variable {cs ds : List Char}

theorem nil : Gap [] := by
  intro x c y h
  simp at h

theorem append (h : Gap cs) (h' : Gap ds) : Gap (cs ++ ds) := by
  intro x c y hsplit
  obtain ⟨y', hcs, rfl⟩ | ⟨x', rfl, hds⟩ := split_append hsplit
  · exact (h x c y' hcs).imp_right fun hjoint => hjoint.extend [] ds
  · refine (h' x' c y hds).imp_right fun hjoint => ?_
    simpa using hjoint.extend cs []

theorem of_blank (h : ∀ c ∈ cs, Text.isBlank c) : Gap cs := by
  rintro x c y rfl
  exact Or.inl (h c (by simp))

theorem of_joint (h : Joint cs) : Gap cs := by
  rintro x c y rfl
  exact Or.inr ⟨[], x, y, [], rfl, by simp, h⟩

theorem spare (h : Gap cs) {before after x y : List Char} {c : Char} (hcs : cs = x ++ c :: y) :
    Spare (before ++ x) c (y ++ after) :=
  (h x c y hcs).elim .blank fun hjoint => .joint (hjoint.extend before after)

end Gap

/-! ### Glyphs outside the commands -/

namespace Glyph
variable {u v rest : List Char}

theorem gap (h : Glyph u v rest) (hv : ∀ c ∈ v, Text.isBlank c) : Gap u := by
  cases h with
  | newline => exact .of_joint .newline
  | carriage => exact .of_joint .carriage
  | both => exact .of_joint .both
  | escaped | backslash => exact absurd (hv '\\' List.mem_cons_self) (by decide)
  | «break» _ hbreak =>
    obtain rfl | rfl := hbreak <;> exact .of_blank (List.forall_mem_singleton.mpr rfl)
  | plain => exact .of_blank hv

theorem after_of_blank (h : Glyph u v rest) (hv : ∀ c ∈ v, Text.isBlank c) (n : Nesting) :
    n.after u = n := by
  cases h with
  | newline | carriage | both => rfl
  | escaped | backslash => exact absurd (hv '\\' List.mem_cons_self) (by decide)
  | «break» _ hbreak => obtain rfl | rfl := hbreak <;> rfl
  | plain => simpa [Nesting.after] using n.after_blank hv []

theorem joint_or_single (h : Glyph u v rest) (hu : ¬ Opening u) :
    Joint u ∨ ∃ c, u = [c] ∧ (Text.isBlank c ∨ c = ';' ∨ c = '#') := by
  refine or_iff_not_imp_left.mpr fun hjoint => ?_
  have hescape : ∀ cs, u ≠ '\\' :: cs := fun cs hcs =>
    hu ⟨hjoint, '\\', cs, hcs, by decide, by decide, by decide⟩
  cases h with
  | newline | carriage | both | escaped | backslash => exact absurd rfl (hescape _)
  | @«break» c _ hbreak =>
    refine ⟨c, rfl, Or.inl ?_⟩
    obtain rfl | rfl := hbreak <;> rfl
  | @plain c =>
    refine ⟨c, rfl, ?_⟩
    by_contra hnot
    simp only [not_or, Bool.not_eq_true] at hnot
    exact hu ⟨hjoint, c, [], rfl, hnot⟩

theorem not_blank_of_opening (h : Glyph u v rest) (hu : Opening u) :
    ¬ ∀ c ∈ v, Text.isBlank c := by
  obtain ⟨hjoint, c, cs, rfl, hblank, -⟩ := hu
  intro hv
  cases h with
  | newline => exact hjoint .newline
  | carriage => exact hjoint .carriage
  | both => exact hjoint .both
  | escaped | backslash => exact absurd (hv '\\' List.mem_cons_self) (by decide)
  | «break» _ hbreak => obtain rfl | rfl := hbreak <;> exact absurd hblank (by decide)
  | plain => simp [hblank] at hv

end Glyph

/-! ### Spans -/

/-- Where a command stands: in front of it, in its span, and behind it. It is followed by white
space up to a separator when it has closed what it opened, or else up to the end of the script. -/
structure Span (before inside after : List Char) (st : Statement) : Prop where
  nonempty : inside ≠ []
  start : st.start = String.utf8Len before
  stop : st.stop = String.utf8Len (before ++ inside)
  text : ∃ lead, (∀ c ∈ lead, Text.isBlank c) ∧ st.text = Text.trimEnd (lead ++ joined inside)
  ended : ∃ gap rest, after = gap ++ rest ∧ Gap gap ∧ (rest = [] ∨
    Nesting.outside.after inside = .outside ∧ ∃ c rest', rest = c :: rest' ∧ (c = '\n' ∨ c = ';'))

/-- The commands of the rest of a script: each has its span there, they follow one another, and
nothing is lost between them. -/
structure Covered (before rest : List Char) (sts : List Statement) : Prop where
  spans : ∀ st ∈ sts, ∃ gap inside after, rest = gap ++ inside ++ after ∧
    Span (before ++ gap) inside after st
  ordered : sts.Pairwise (·.stop ≤ ·.start)
  spare : ∀ x c y, rest = x ++ c :: y →
    (∀ st ∈ sts, ¬ (st.start ≤ String.utf8Len (before ++ x) ∧ String.utf8Len (before ++ x) < st.stop)) →
    Spare (before ++ x) c y

namespace Covered
variable {before u inside rest : List Char} {st : Statement} {sts : List Statement}

theorem nil (before : List Char) : Covered before [] [] where
  spans := by simp
  ordered := .nil
  spare x c y h := by simp at h

theorem skip (h : Covered (before ++ u) rest sts)
    (hu : ∀ x c y, u = x ++ c :: y → Spare (before ++ x) c (y ++ rest)) :
    Covered before (u ++ rest) sts where
  spans st hst := by
    obtain ⟨gap, inside, after, rfl, hspan⟩ := h.spans st hst
    exact ⟨u ++ gap, inside, after, by simp, by simpa using hspan⟩
  ordered := h.ordered
  spare x c y hsplit houtside := by
    obtain ⟨y', hx, rfl⟩ | ⟨x', rfl, hrest⟩ := split_append hsplit
    · exact hu x c y' hx
    · have hspare := h.spare x' c y hrest (by simpa using houtside)
      rwa [List.append_assoc] at hspare

theorem skip_gap (h : Covered (before ++ u) rest sts) (hu : Gap u) :
    Covered before (u ++ rest) sts :=
  h.skip fun _ _ _ hsplit => hu.spare hsplit

theorem skip_one {c : Char} (h : Covered (before ++ [c]) rest sts) (hc : Spare before c rest) :
    Covered before (c :: rest) sts := by
  refine h.skip fun x d y hsplit => ?_
  obtain ⟨rfl, hsplit⟩ | ⟨x', rfl, hsplit⟩ := List.cons_eq_append_iff.mp hsplit
  · obtain ⟨rfl, rfl⟩ := List.cons.inj hsplit
    simpa using hc
  · simp at hsplit

theorem command (hst : Span before inside rest st) (h : Covered (before ++ inside) rest sts) :
    Covered before (inside ++ rest) (st :: sts) where
  spans := by
    refine List.forall_mem_cons.mpr ⟨⟨[], inside, rest, rfl, by simpa using hst⟩, fun st' hst' => ?_⟩
    obtain ⟨gap, inside', after, rfl, hspan⟩ := h.spans st' hst'
    exact ⟨inside ++ gap, inside', after, by simp, by simpa using hspan⟩
  ordered := by
    refine List.pairwise_cons.mpr ⟨fun st' hst' => ?_, h.ordered⟩
    obtain ⟨gap, inside', after, rfl, hspan⟩ := h.spans st' hst'
    rw [hst.stop, hspan.start, String.utf8Len_append (before ++ inside)]
    exact Nat.le_add_right _ _
  spare x c y hsplit houtside := by
    obtain ⟨hhere, hlater⟩ := List.forall_mem_cons.mp houtside
    obtain ⟨y', rfl, rfl⟩ | ⟨x', rfl, hrest⟩ := split_append hsplit
    · refine absurd ?_ hhere
      rw [hst.start, hst.stop]
      have hpos := c.utf8Size_pos
      simp only [String.utf8Len_append, String.utf8Len_cons]
      omega
    · have hspare := h.spare x' c y hrest (by simpa using hlater)
      rwa [List.append_assoc] at hspare

end Covered

/-! ### The course of the splitter -/

def Reaches (before rest : List Char) (p : Point) : Prop :=
  ∀ x, x <+: rest → Point.start.after (before ++ x) = p.after x

namespace Reaches
variable {before u v rest : List Char} {p : Point}

theorem after (h : Reaches before rest p) : Point.start.after before = p := by
  have hnil := h [] List.nil_prefix
  rw [List.append_nil] at hnil
  cases p <;> exact hnil

theorem glyph (h : Reaches before (u ++ rest) p) (hu : Glyph u v rest) (hp : p ≠ .comment) :
    Reaches (before ++ u) rest (p.after u) := by
  intro x hx
  rw [List.append_assoc, h _ ((List.prefix_append_right_inj u).mpr hx), hu.point hx hp]

theorem comment {c : Char} (h : Reaches before (c :: rest) .comment) :
    Reaches (before ++ [c]) rest (Point.comment.step c) := by
  intro x hx
  rw [List.append_assoc, List.singleton_append, h _ ((List.prefix_cons_inj c).mpr hx), Point.after]

end Reaches

structure Scan.Idle (s : Scan) : Prop where
  text : ∀ c ∈ s.text, Text.isBlank c
  start : s.start = none
  nesting : s.nesting = .outside

/-- What the splitter has collected of a command: a text up to the last character that is not blank,
and a gap behind it. -/
structure Scan.Open (s : Scan) (before inside gap rest : List Char) : Prop where
  nonempty : inside ≠ []
  blank : Gap gap
  start : s.start = some (String.utf8Len before)
  stop : s.stop = String.utf8Len (before ++ inside)
  text : ∃ lead tail, (∀ c ∈ lead, Text.isBlank c) ∧ (∀ c ∈ tail, Text.isBlank c) ∧
    s.text.reverse = lead ++ joined inside ++ tail ∧
      ∀ x, x <+: rest → joined (inside ++ gap ++ x) = joined inside ++ tail ++ joined x
  opened : Nesting.outside.after inside = s.nesting
  nesting : ∀ x, x <+: rest → Nesting.outside.after (inside ++ gap ++ x) = s.nesting.after x
  reaches : Reaches (before ++ inside ++ gap) rest (.inside s.nesting)

namespace Scan.Open
variable {s : Scan} {before inside gap u v rest : List Char}

theorem start_glyph (hs : s.Idle) (hu : Glyph u v rest) (hopening : Opening u)
    (hreaches : Reaches before (u ++ rest) .start) : ∃ s',
      splitFrom (String.utf8Len before) s (u ++ rest) =
        splitFrom (String.utf8Len (before ++ u ++ [])) s' rest ∧ s'.Open before u [] rest := by
  have hending : Ending u → s.nesting ≠ .outside := by
    obtain ⟨-, c, cs, rfl, hblank, hsemicolon, -⟩ := hopening
    rintro (h | h)
    · obtain rfl := (List.cons.inj h).1
      exact absurd hblank (by decide)
    · exact absurd (List.cons.inj h).1 hsemicolon
  obtain ⟨s', hsplit, htext, hstart, hstop, hnesting⟩ := hu.splitFrom (Or.inr hopening) hending
    (String.utf8Len before)
  have hjoined : joined u = v := by simpa [joined] using hu.joined List.nil_prefix
  have hnot := hu.not_blank_of_opening hopening
  rw [hs.start] at hstart
  rw [hs.nesting] at hnesting
  refine ⟨s', by simpa using hsplit, ?_, .nil, hstart, ?_,
    ⟨s.text.reverse, [], ?_, by simp, ?_, ?_⟩, hnesting.symm, ?_, ?_⟩
  · obtain ⟨-, c, cs, rfl, -⟩ := hopening
    exact List.cons_ne_nil c cs
  · rw [hstop, if_neg (by simpa using hnot), String.utf8Len_append]
  · exact fun c hc => hs.text c (List.mem_reverse.mp hc)
  · rw [htext, hjoined]
    simp
  · intro x hx
    rw [List.append_nil, List.append_nil, hu.joined hx, hjoined]
  · intro x hx
    rw [List.append_nil, hu.nesting hx, hnesting]
  · have hreaches := hreaches.glyph hu (by simp)
    rwa [hu.point_start hopening, ← hnesting, ← List.append_nil (before ++ u)] at hreaches

theorem glyph (hs : s.Open before inside gap (u ++ rest)) (hu : Glyph u v rest)
    (hending : Ending u → s.nesting ≠ .outside) : ∃ s' inside' gap',
      splitFrom (String.utf8Len (before ++ inside ++ gap)) s (u ++ rest) =
        splitFrom (String.utf8Len (before ++ inside' ++ gap')) s' rest ∧
      inside' ++ gap' = inside ++ gap ++ u ∧ s'.Open before inside' gap' rest := by
  obtain ⟨s', hsplit, htext, hstart, hstop, hnesting⟩ := hu.splitFrom
    (Or.inl (by rw [hs.start]; rfl)) hending (String.utf8Len (before ++ inside ++ gap))
  obtain ⟨lead, tail, hlead, htail, hreverse, hjoined⟩ := hs.text
  rw [hs.start] at hstart
  have hcollected : s'.text.reverse = lead ++ joined inside ++ tail ++ v := by
    rw [htext, List.reverse_append, hreverse, List.reverse_reverse]
  -- What is read of the command with the glyph does not depend on what of it counts as its text.
  have hahead : ∀ x, x <+: rest → u ++ x <+: u ++ rest := fun x hx =>
    (List.prefix_append_right_inj u).mpr hx
  have hjoins : ∀ x, x <+: rest →
      joined (inside ++ gap ++ u ++ x) = joined inside ++ tail ++ v ++ joined x := by
    intro x hx
    rw [List.append_assoc, hjoined _ (hahead x hx), hu.joined hx, ← List.append_assoc]
  have hnested : ∀ x, x <+: rest →
      Nesting.outside.after (inside ++ gap ++ u ++ x) = s'.nesting.after x := by
    intro x hx
    rw [List.append_assoc, hs.nesting _ (hahead x hx), hu.nesting hx, hnesting]
  have hreaches : Reaches (before ++ inside ++ gap ++ u) rest (.inside s'.nesting) := by
    have hreaches := hs.reaches.glyph hu (by simp)
    rwa [hu.point_inside hending, ← hnesting] at hreaches
  by_cases hv : ∀ c ∈ v, Text.isBlank c
  · refine ⟨s', inside, gap ++ u, ?_, by simp, hs.nonempty, hs.blank.append (hu.gap hv), hstart, ?_,
      ⟨lead, tail ++ v, hlead, ?_, by simpa using hcollected, by simpa using hjoins⟩, ?_,
      by simpa using hnested, by simpa using hreaches⟩
    · rw [hsplit, ← String.utf8Len_append]
      simp
    · rw [hstop, if_pos (by simpa using hv), hs.stop]
    · exact List.forall_mem_append.mpr ⟨htail, hv⟩
    · rw [hnesting, hu.after_of_blank hv, hs.opened]
  · have hwhole : joined (inside ++ gap ++ u) = joined inside ++ tail ++ v := by
      simpa [joined] using hjoins [] List.nil_prefix
    refine ⟨s', inside ++ gap ++ u, [], ?_, by simp, by simp [hs.nonempty], .nil, hstart, ?_,
      ⟨lead, [], hlead, by simp, ?_, ?_⟩, ?_, by simpa using hnested, by simpa using hreaches⟩
    · rw [hsplit, ← String.utf8Len_append]
      simp
    · rw [hstop, if_neg (by simpa using hv), ← String.utf8Len_append]
      simp
    · rw [hcollected, hwhole]
      simp
    · intro x hx
      rw [List.append_nil, List.append_nil, hjoins x hx, hwhole]
    · simpa [Nesting.after] using hnested [] List.nil_prefix

theorem command (hs : s.Open before inside gap rest) (hrest : rest = [] ∨ s.nesting = .outside ∧
      ∃ c rest', rest = c :: rest' ∧ (c = '\n' ∨ c = ';')) :
    ∃ st, s.command? = some st ∧ Span before inside (gap ++ rest) st := by
  obtain ⟨lead, tail, hlead, htail, hreverse, -⟩ := hs.text
  refine ⟨⟨Text.trimEnd s.text.reverse, String.utf8Len before, s.stop⟩, ?_, hs.nonempty, rfl, hs.stop,
    ⟨lead, hlead, ?_⟩, gap, rest, rfl, hs.blank, ?_⟩
  · simp [Scan.command?, hs.start, Text.trimEnd]
  · rw [hreverse, Text.trimEnd_append htail]
  · rwa [hs.opened]

end Scan.Open

def CoversIdle (rest : List Char) : Prop := ∀ before (s : Scan), s.Idle → Reaches before rest .start →
  Covered before rest (splitFrom (String.utf8Len before) s rest)

def CoversOpen (rest : List Char) : Prop := ∀ before inside gap (s : Scan),
  s.Open before inside gap rest →
    Covered before (inside ++ gap ++ rest) (splitFrom (String.utf8Len (before ++ inside ++ gap)) s rest)

theorem covers_open {rest : List Char}
    (ih : ∀ rest', rest'.length < rest.length → CoversIdle rest' ∧ CoversOpen rest') :
    CoversOpen rest := by
  intro before inside gap s hs
  cases rest with
  | nil =>
    obtain ⟨st, hcommand, hspan⟩ := hs.command (Or.inl rfl)
    rw [splitFrom, hcommand, List.append_assoc]
    exact .command hspan ((Covered.nil _).skip_gap hs.blank)
  | cons c rest =>
    by_cases hend : (c = '\n' ∨ c = ';') ∧ s.nesting = .outside
    · obtain ⟨hc, hnesting⟩ := hend
      obtain ⟨st, hcommand, hspan⟩ := hs.command (Or.inr ⟨hnesting, c, rest, rfl, hc⟩)
      have hreaches := hs.reaches
      rw [hnesting] at hreaches
      have hnext : Reaches (before ++ inside ++ gap ++ [c]) rest .start := by
        obtain rfl | rfl := hc
        · exact hreaches.glyph (.break rest (Or.inl rfl)) (by simp)
        · exact hreaches.glyph (.plain rest (by decide) (by decide) (by decide)) (by simp)
      have hrest := (ih rest (by simp)).1 _ s.next ⟨by simp [Scan.next], rfl, hnesting⟩ hnext
      have hseparator : Spare (before ++ inside ++ gap) c rest := by
        obtain rfl | rfl := hc
        · exact .blank rfl
        · exact .semicolon rfl (Or.inr hreaches.after)
      have hsize : String.utf8Len (before ++ inside ++ gap) + c.utf8Size =
          String.utf8Len (before ++ inside ++ gap ++ [c]) := by simp [Nat.add_assoc]
      rw [splitFrom_ending hc (by rw [hs.start]; rfl) (Scan.nested_of_outside hnesting), hcommand,
        List.append_assoc, hsize]
      exact .command hspan ((hrest.skip_one hseparator).skip_gap hs.blank)
    · obtain ⟨u, v, rest', hsplit, hne, hu⟩ := exists_glyph (List.cons_ne_nil c rest)
      have hending : Ending u → s.nesting ≠ .outside := by
        rintro (rfl | rfl) hnesting
        · exact hend ⟨Or.inl (List.cons.inj hsplit).1, hnesting⟩
        · exact hend ⟨Or.inr (List.cons.inj hsplit).1, hnesting⟩
      rw [hsplit] at hs ih ⊢
      obtain ⟨s', inside', gap', hstep, hwhole, hs'⟩ := hs.glyph hu hending
      have hlength : rest'.length < (u ++ rest').length := by
        simp [List.length_pos_iff.mpr hne]
      rw [hstep, ← List.append_assoc, ← hwhole]
      exact (ih rest' hlength).2 before inside' gap' s' hs'

theorem covers_comment {rest : List Char} (ih : ∀ rest', rest'.length < rest.length → CoversIdle rest')
    {before a b : List Char} {s : Scan} (hs : s.Idle) (hreaches : Reaches before rest .comment)
    (hbefore : before = a ++ '#' :: b) (hstart : Point.start.after a = .start) (hb : '\n' ∉ b) :
    Covered before rest (skipComment (String.utf8Len before) s rest) := by
  induction rest generalizing before b with
  | nil =>
    rw [skipComment, Scan.command?, hs.start]
    exact .nil before
  | cons c rest ih' =>
    have hnext := hreaches.comment
    have hsize : String.utf8Len before + c.utf8Size = String.utf8Len (before ++ [c]) := by simp
    rw [skipComment]
    split
    · rename_i hc
      subst hc
      have hrest := ih rest (by simp) _ s hs hnext
      rw [← hsize] at hrest
      exact hrest.skip_one (.blank rfl)
    · rename_i hc
      rw [Point.step, if_neg hc] at hnext
      have hb' : '\n' ∉ b ++ [c] := by simp [hb, Ne.symm hc]
      have hbefore' : before ++ [c] = a ++ '#' :: (b ++ [c]) := by simp [hbefore]
      have hrest := ih' (fun rest' hlength => ih rest' (Nat.lt_succ_of_lt hlength)) hnext hbefore' hb'
      rw [hsize]
      exact hrest.skip_one (.comment a (b ++ [c]) hbefore' hstart hb')

theorem splitFrom_idle {pos : Nat} {s : Scan} {c : Char} {rest : List Char} (hstart : s.start = none)
    (hc : Text.isBlank c ∨ c = ';') :
    splitFrom pos s (c :: rest) = splitFrom (pos + c.utf8Size) s rest := by
  have hescape : c ≠ '\\' := by
    rintro rfl
    exact absurd hc (by decide)
  rw [splitFrom]
  · rw [if_pos ⟨by simp [hstart], hc⟩]
  all_goals simp [hescape]

theorem splitFrom_comment {pos : Nat} {s : Scan} {rest : List Char} (hstart : s.start = none) :
    splitFrom pos s ('#' :: rest) = skipComment (pos + '#'.utf8Size) s rest := by
  rw [splitFrom]
  · rw [if_neg fun h => absurd h.2 (by decide), if_pos ⟨by simp [hstart], rfl⟩]
  all_goals simp

theorem Point.start_after {c : Char} (hc : Text.isBlank c ∨ c = ';') :
    Point.start.after [c] = .start := by
  have hescape : c ≠ '\\' := by
    rintro rfl
    exact absurd hc (by decide)
  rw [Point.after, Point.step, if_pos hc]
  · rfl
  all_goals simp [hescape]

theorem covers_idle {rest : List Char}
    (ih : ∀ rest', rest'.length < rest.length → CoversIdle rest' ∧ CoversOpen rest') :
    CoversIdle rest := by
  intro before s hs hreaches
  by_cases hrest : rest = []
  · subst hrest
    rw [splitFrom, Scan.command?, hs.start]
    exact .nil before
  · obtain ⟨u, v, rest, rfl, hne, hu⟩ := exists_glyph hrest
    have hlength : rest.length < (u ++ rest).length := by
      simp [List.length_pos_iff.mpr hne]
    have hsize : String.utf8Len before + String.utf8Len u = String.utf8Len (before ++ u) := by simp
    by_cases hopening : Opening u
    · obtain ⟨s', hsplit, hs'⟩ := Scan.Open.start_glyph hs hu hopening hreaches
      rw [hsplit]
      simpa using (ih rest hlength).2 before u [] s' hs'
    · have hnext := hreaches.glyph hu (by simp)
      obtain hjoint | ⟨c, rfl, hc⟩ := hu.joint_or_single hopening
      · have hpoint : Point.start.after u = .start := by cases hjoint <;> rfl
        have hidle : s.blank.Idle :=
          ⟨List.forall_mem_cons.mpr ⟨rfl, hs.text⟩, hs.start, hs.nesting⟩
        rw [hpoint] at hnext
        rw [hu.splitFrom_joint hjoint, hsize]
        exact ((ih rest hlength).1 _ _ hidle hnext).skip_gap (.of_joint hjoint)
      · have hsize : String.utf8Len before + c.utf8Size = String.utf8Len (before ++ [c]) := by simp
        by_cases hc' : Text.isBlank c ∨ c = ';'
        · rw [Point.start_after hc'] at hnext
          rw [List.singleton_append, splitFrom_idle hs.start hc', hsize]
          exact ((ih rest hlength).1 _ s hs hnext).skip_one
            (hc'.elim .blank fun hc' => .semicolon hc' (Or.inl hreaches.after))
        · obtain rfl : c = '#' := by tauto
          rw [List.singleton_append, splitFrom_comment hs.start, hsize]
          exact (covers_comment (fun rest' hlength' => (ih rest' (hlength'.trans hlength)).1) hs hnext
            rfl hreaches.after (by simp)).skip_one
            (.comment before [] rfl hreaches.after (by simp))

theorem covers (rest : List Char) : CoversIdle rest ∧ CoversOpen rest := by
  induction hn : rest.length using Nat.strong_induction_on generalizing rest with
  | _ n ih =>
    subst hn
    have ih : ∀ rest', rest'.length < rest.length → CoversIdle rest' ∧ CoversOpen rest' :=
      fun rest' hlength => ih _ hlength rest' rfl
    exact ⟨covers_idle ih, covers_open ih⟩

theorem split_covered (source : String) : Covered [] source.toList (split source) :=
  (covers source.toList).1 [] {} ⟨by simp, rfl, rfl⟩ fun _ _ => rfl

/-- Nothing of a script is lost when it is split. Every command has a span of the script, with whole
characters, which is not empty, and apart from white space at its ends its text is what stands there
with its lines joined. The spans come one after the other. Every other character is white space, a
semicolon with nothing open, in a comment or in a joint. -/
theorem split_covers (source : String) :
    (∀ st ∈ split source, st.start < st.stop ∧ ∃ before inside after : String,
      source = before ++ inside ++ after ∧ st.start = before.utf8ByteSize ∧
        st.stop = (before ++ inside).utf8ByteSize ∧
        Text.trim (String.ofList st.text) = Text.trim (String.ofList (joined inside.toList))) ∧
      (split source).Pairwise (·.stop ≤ ·.start) ∧
      ∀ before c after, source.toList = before ++ c :: after →
        (∀ st ∈ split source, ¬ (st.start ≤ String.utf8Len before ∧ String.utf8Len before < st.stop)) →
          Spare before c after := by
  have hcovered := split_covered source
  refine ⟨fun st hst => ?_, hcovered.ordered, fun before c after hsplit houtside =>
    hcovered.spare before c after hsplit houtside⟩
  obtain ⟨before, inside, after, hsplit, hspan⟩ := hcovered.spans st hst
  obtain ⟨lead, hlead, htext⟩ := hspan.text
  refine ⟨?_, String.ofList before, String.ofList inside, String.ofList after, ?_, ?_, ?_, ?_⟩
  · rw [hspan.start, hspan.stop, List.nil_append, String.utf8Len_append]
    exact Nat.lt_add_of_pos_right
      (Nat.pos_of_ne_zero (mt String.utf8Len_eq_zero.mp hspan.nonempty))
  · rw [← String.ofList_append, ← String.ofList_append, ← hsplit, String.ofList_toList]
  · rw [hspan.start, String.utf8ByteSize_ofList, List.nil_append]
  · rw [hspan.stop, ← String.ofList_append, String.utf8ByteSize_ofList, List.nil_append]
  · rw [htext, Text.trim_trimEnd, Text.trim_append_left hlead, String.toList_ofList]

example : (split "a \\\n;b # c").map (fun st => (st.start, st.stop)) = [(0, 1), (5, 10)] := by
  decide +kernel

end ClockTree.Script
