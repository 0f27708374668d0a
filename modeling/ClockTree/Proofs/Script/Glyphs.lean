import ClockTree.Proofs.Script.Sentences
import Mathlib.Data.String.Basic

/-!
# Glyphs of a script

A glyph is a character of a script, an escaped character or a backslash with the line break behind
it. A text of glyphs is read from its beginning: what is open after it, whether it stands between
commands or in a comment, and what its lines are when they are joined. The splitter takes the glyphs
of a command one after the other and keeps the same record of what is open.
-/
namespace ClockTree.Script

/-! ### Reading a text -/

inductive Joint : List Char → Prop
  | newline : Joint ['\\', '\n']
  | carriage : Joint ['\\', '\r']
  | both : Joint ['\\', '\r', '\n']

/-- A text with its lines joined: joints and other line breaks become blanks, and what stands behind
a backslash is kept. -/
def joined : List Char → List Char
  | [] => []
  | '\\' :: '\r' :: '\n' :: cs => ' ' :: joined cs
  | '\\' :: '\n' :: cs => ' ' :: joined cs
  | '\\' :: '\r' :: cs => ' ' :: joined cs
  | '\\' :: c :: cs => '\\' :: c :: joined cs
  | c :: cs => (if c = '\n' ∨ c = '\r' then ' ' else c) :: joined cs

/-- What is open after a text of a command. A character behind a backslash neither opens nor closes
anything. -/
def Nesting.after : Nesting → List Char → Nesting
  | n, [] => n
  | n, '\\' :: _ :: cs => n.after cs
  | n, c :: cs => (n.track c).after cs

inductive Point where
  | start
  | comment
  | inside (n : Nesting)
deriving DecidableEq

def Point.step : Point → Char → Point
  | .start, c =>
    if Text.isBlank c ∨ c = ';' then .start
    else if c = '#' then .comment
    else .inside (Nesting.outside.track c)
  | .comment, c => if c = '\n' then .start else .comment
  | .inside n, c => if (c = '\n' ∨ c = ';') ∧ n = .outside then .start else .inside (n.track c)

/-- Where a script stands after a text. Joints leave it where it is, and a backslash takes the next
character along. In a comment a backslash is a character like others. -/
def Point.after : Point → List Char → Point
  | p, [] => p
  | .comment, c :: cs => (Point.comment.step c).after cs
  | p, '\\' :: '\r' :: '\n' :: cs => p.after cs
  | p, '\\' :: '\n' :: cs => p.after cs
  | p, '\\' :: '\r' :: cs => p.after cs
  | p, '\\' :: _ :: cs => (p.step '\\').after cs
  | p, c :: cs => (p.step c).after cs

/-! ### What is open after a text -/

namespace Nesting

theorem track_blank (n : Nesting) {c : Char} (hc : Text.isBlank c) : n.track c = n := by
  have hinert : Inert c := by
    refine ⟨?_, ?_, ?_, ?_, ?_⟩ <;> rintro rfl <;> exact absurd hc (by decide)
  exact foldl_track_inert (List.forall_mem_singleton.mpr hinert) n

theorem after_plain (n : Nesting) {c : Char} (hc : c ≠ '\\') (cs : List Char) :
    n.after (c :: cs) = (n.track c).after cs := by
  rw [after]
  simp [hc]

theorem after_append {cs : List Char} (h : cs.getLast? ≠ some '\\') (n : Nesting) (ds : List Char) :
    n.after (cs ++ ds) = (n.after cs).after ds := by
  fun_induction n.after cs with
  | case1 => rfl
  | case2 n c cs ih =>
    refine ih fun hlast => h ?_
    rw [List.getLast?_cons, List.getLast?_cons, hlast]
    rfl
  | case3 n c cs hsingle ih =>
    have hescape : c ≠ '\\' := by
      rintro rfl
      cases cs with
      | nil => exact h rfl
      | cons d cs => exact hsingle d cs rfl rfl
    rw [List.cons_append, after_plain n hescape, ih fun hlast => h (by rw [List.getLast?_cons, hlast]; rfl)]

theorem after_blank {blanks : List Char} (h : ∀ c ∈ blanks, Text.isBlank c) (n : Nesting)
    (cs : List Char) : n.after (blanks ++ cs) = n.after cs := by
  induction blanks with
  | nil => rfl
  | cons c blanks ih =>
    obtain ⟨hc, hblanks⟩ := List.forall_mem_cons.mp h
    have hescape : c ≠ '\\' := by
      rintro rfl
      exact absurd hc (by decide)
    rw [List.cons_append, after_plain n hescape, n.track_blank hc, ih hblanks]

theorem after_append_blank {blanks : List Char} (h : ∀ c ∈ blanks, Text.isBlank c) (n : Nesting)
    (cs : List Char) : n.after (cs ++ blanks) = n.after cs := by
  have hblanks : ∀ {blanks : List Char}, (∀ c ∈ blanks, Text.isBlank c) → ∀ n : Nesting,
      n.after blanks = n := fun h n => by
    simpa [after] using after_blank h n []
  fun_induction n.after cs with
  | case1 n => exact hblanks h n
  | case2 n c cs ih => exact ih
  | case3 n c cs hsingle ih =>
    by_cases hescape : c = '\\'
    · subst hescape
      obtain rfl : cs = [] := by
        cases cs with
        | nil => rfl
        | cons d cs => exact (hsingle d cs rfl rfl).elim
      -- a backslash at the end takes a blank along
      cases blanks with
      | nil => rfl
      | cons b blanks => exact hblanks (List.forall_mem_cons.mp h).2 n
    · rw [List.cons_append, after_plain n hescape, ih]

theorem after_joined (n : Nesting) (cs : List Char) : n.after (joined cs) = n.after cs := by
  fun_induction joined cs generalizing n with
  | case1 => rfl
  | case2 cs ih => exact ih n
  | case3 cs ih => exact ih n
  | case4 cs _ ih => exact ih n
  | case5 c cs _ _ _ ih => exact ih n
  | case6 c cs hboth hnewline hcarriage hsingle ih =>
    by_cases hescape : c = '\\'
    · subst hescape
      obtain rfl : cs = [] := by
        cases cs with
        | nil => rfl
        | cons d cs => exact (hsingle d cs rfl rfl).elim
      rfl
    · rw [after_plain n hescape, ← ih]
      split
      · rename_i hbreak
        obtain rfl | rfl := hbreak <;> rfl
      · exact after_plain n hescape _

end Nesting

/-! ### Glyphs -/

/-- A glyph of a script in front of the rest: a joint, an escaped character or another character,
and what stands for it in the text of a command. -/
inductive Glyph : List Char → List Char → List Char → Prop
  | newline (rest) : Glyph ['\\', '\n'] [' '] rest
  | carriage {rest : List Char} : rest.head? ≠ some '\n' → Glyph ['\\', '\r'] [' '] rest
  | both (rest) : Glyph ['\\', '\r', '\n'] [' '] rest
  | escaped {c : Char} (rest) : c ≠ '\n' → c ≠ '\r' → Glyph ['\\', c] ['\\', c] rest
  | backslash : Glyph ['\\'] ['\\'] []
  | break {c : Char} (rest) : c = '\n' ∨ c = '\r' → Glyph [c] [' '] rest
  | plain {c : Char} (rest) : c ≠ '\\' → c ≠ '\n' → c ≠ '\r' → Glyph [c] [c] rest

theorem exists_glyph {cs : List Char} (h : cs ≠ []) :
    ∃ u v rest, cs = u ++ rest ∧ u ≠ [] ∧ Glyph u v rest := by
  obtain ⟨c, cs, rfl⟩ := List.exists_cons_of_ne_nil h
  by_cases hescape : c = '\\'
  · subst hescape
    cases cs with
    | nil => exact ⟨['\\'], ['\\'], [], rfl, by simp, .backslash⟩
    | cons d cs =>
      by_cases hnewline : d = '\n'
      · subst hnewline
        exact ⟨['\\', '\n'], [' '], cs, rfl, by simp, .newline cs⟩
      · by_cases hcarriage : d = '\r'
        · subst hcarriage
          by_cases hboth : cs.head? = some '\n'
          · obtain ⟨cs, rfl⟩ := List.head?_eq_some_iff.mp hboth
            exact ⟨['\\', '\r', '\n'], [' '], cs, rfl, by simp, .both cs⟩
          · exact ⟨['\\', '\r'], [' '], cs, rfl, by simp, .carriage hboth⟩
        · exact ⟨['\\', d], ['\\', d], cs, rfl, by simp, .escaped cs hnewline hcarriage⟩
  · by_cases hbreak : c = '\n' ∨ c = '\r'
    · exact ⟨[c], [' '], cs, rfl, by simp, .break cs hbreak⟩
    · rw [not_or] at hbreak
      exact ⟨[c], [c], cs, rfl, by simp, .plain cs hescape hbreak.1 hbreak.2⟩

theorem head?_ne_of_prefix {x rest : List Char} {c : Char} (hx : x <+: rest)
    (h : rest.head? ≠ some c) : x.head? ≠ some c := by
  intro hhead
  obtain ⟨x, rfl⟩ := List.head?_eq_some_iff.mp hhead
  obtain ⟨y, rfl⟩ := hx
  exact h rfl

def Opening (u : List Char) : Prop :=
  ¬ Joint u ∧ ∃ c cs, u = c :: cs ∧ Text.isBlank c = false ∧ c ≠ ';' ∧ c ≠ '#'

def Ending (u : List Char) : Prop := u = ['\n'] ∨ u = [';']

namespace Glyph
variable {u v rest x : List Char}

theorem joined (h : Glyph u v rest) (hx : x <+: rest) :
    Script.joined (u ++ x) = v ++ Script.joined x := by
  cases h with
  | newline => rfl
  | carriage hhead =>
    have hhead := head?_ne_of_prefix hx hhead
    rw [List.cons_append, List.cons_append, List.nil_append, Script.joined] <;> grind
  | both => rfl
  | escaped _ hnewline hcarriage =>
    rw [List.cons_append, List.cons_append, List.nil_append, Script.joined] <;> grind
  | backslash =>
    obtain rfl := List.prefix_nil.mp hx
    rfl
  | «break» _ hbreak =>
    rw [List.singleton_append, Script.joined] <;> grind
  | plain _ hescape hnewline hcarriage =>
    rw [List.singleton_append, Script.joined] <;> grind

theorem nesting (h : Glyph u v rest) (hx : x <+: rest) (n : Nesting) :
    n.after (u ++ x) = (n.after u).after x := by
  cases h with
  | newline | carriage | escaped => rfl
  | both => rfl
  | backslash =>
    obtain rfl := List.prefix_nil.mp hx
    rfl
  | «break» _ hbreak =>
    obtain rfl | rfl := hbreak <;> rfl
  | plain _ hescape =>
    rw [List.singleton_append, n.after_plain hescape, n.after_plain hescape, Nesting.after]

theorem point (h : Glyph u v rest) (hx : x <+: rest) {p : Point} (hp : p ≠ .comment) :
    p.after (u ++ x) = (p.after u).after x := by
  cases h with
  | newline | both => cases p <;> simp_all [Point.after]
  | carriage hhead =>
    have hhead := head?_ne_of_prefix hx hhead
    rw [List.cons_append, List.cons_append, List.nil_append, Point.after, Point.after,
      Point.after] <;> grind
  | escaped _ hnewline hcarriage =>
    rw [List.cons_append, List.cons_append, List.nil_append, Point.after, Point.after,
      Point.after] <;> grind
  | backslash =>
    obtain rfl := List.prefix_nil.mp hx
    rw [List.append_nil, Point.after]
  | «break» _ hbreak =>
    cases p <;> obtain rfl | rfl := hbreak <;> simp_all [Point.after]
  | plain _ hescape =>
    rw [List.singleton_append, Point.after, Point.after, Point.after] <;> grind

theorem point_inside (h : Glyph u v rest) {n : Nesting} (hn : Ending u → n ≠ .outside) :
    (Point.inside n).after u = .inside (n.after u) := by
  cases h with
  | newline | carriage | both => rfl
  | escaped _ hnewline hcarriage =>
    rw [Point.after]
    · rfl
    all_goals simp_all
  | backslash => rfl
  | «break» _ hbreak =>
    obtain rfl | rfl := hbreak
    · have hnested := hn (Or.inl rfl)
      simp [Point.after, Point.step, hnested, Nesting.after]
    · rfl
  | @plain c _ hescape hnewline hcarriage =>
    have hstep : (Point.inside n).step c = .inside (n.track c) := by
      rw [Point.step, if_neg]
      rintro ⟨rfl | rfl, hn'⟩
      · exact hnewline rfl
      · exact hn (Or.inr rfl) hn'
    rw [Point.after, hstep, Nesting.after] <;> simp_all [Point.after, Nesting.after]

theorem point_start (h : Glyph u v rest) (hu : Opening u) :
    Point.start.after u = .inside (Nesting.outside.after u) := by
  obtain ⟨hjoint, c, cs, rfl, hblank, hsemicolon, hcomment⟩ := hu
  have hstep : Point.start.step c = .inside (Nesting.outside.track c) := by
    rw [Point.step, if_neg (by simp [hblank, hsemicolon]), if_neg hcomment]
  cases h with
  | newline => exact absurd .newline hjoint
  | carriage => exact absurd .carriage hjoint
  | both => exact absurd .both hjoint
  | escaped _ hnewline hcarriage =>
    rw [Point.after]
    · rfl
    all_goals simp_all
  | backslash => rfl
  | «break» _ hbreak =>
    obtain rfl | rfl := hbreak <;> exact absurd hblank (by decide)
  | plain _ hescape =>
    rw [Point.after, hstep, Nesting.after] <;> simp_all [Point.after, Nesting.after]

end Glyph

/-! ### The splitter at a glyph -/

theorem Glyph.splitFrom_joint {u v rest : List Char} (h : Glyph u v rest) (hu : Joint u) (pos : Nat)
    (s : Scan) : splitFrom pos s (u ++ rest) = splitFrom (pos + String.utf8Len u) s.blank rest := by
  cases hu with
  | newline | both => rfl
  | carriage =>
    cases h with
    | carriage hhead =>
      rw [List.cons_append, List.cons_append, List.nil_append, splitFrom]
      · rfl
      · grind
    | escaped _ _ hcarriage => exact absurd rfl hcarriage

theorem splitFrom_break {pos : Nat} {s : Scan} {c : Char} {rest : List Char}
    (hbreak : c = '\n' ∨ c = '\r') (hstart : s.start.isSome) (hnested : c = '\n' → s.nested) :
    splitFrom pos s (c :: rest) = splitFrom (pos + c.utf8Size) s.blank rest := by
  have hnone := Scan.isNone_eq_false hstart
  rw [splitFrom]
  · obtain rfl | rfl := hbreak
    · rw [if_neg (by simp [hnone]), if_neg (by simp [hnone]), if_neg (by simp [hnested]),
        if_pos (by simp)]
    · rw [if_neg (by simp [hnone]), if_neg (by simp [hnone]), if_neg (by simp), if_pos (by simp)]
  all_goals grind

theorem nested_of_ne_outside {s : Scan} (h : s.nesting ≠ .outside) : s.nested := by
  by_contra hnested
  refine h ?_
  simp only [Scan.nested, Bool.or_eq_true, decide_eq_true_eq, not_or, Nat.not_lt, Nat.le_zero,
    Bool.not_eq_true] at hnested
  simp only [Scan.nesting, Nesting.outside, hnested]

theorem Glyph.splitFrom {u v rest : List Char} (h : Glyph u v rest) {s : Scan}
    (hs : s.start.isSome ∨ Opening u) (hn : Ending u → s.nesting ≠ .outside) (pos : Nat) : ∃ s',
      Script.splitFrom pos s (u ++ rest) = Script.splitFrom (pos + String.utf8Len u) s' rest ∧
        s'.text = v.reverse ++ s.text ∧ s'.start = (s.start <|> some pos) ∧
        s'.stop = (if v.all Text.isBlank then s.stop else pos + String.utf8Len u) ∧
        s'.nesting = s.nesting.after u := by
  have hjoint : Joint u → s.start = (s.start <|> some pos) := fun hu => by
    obtain ⟨a, ha⟩ := Option.isSome_iff_exists.mp (hs.resolve_right fun ho => ho.1 hu)
    rw [ha]
    rfl
  cases h with
  | newline => exact ⟨s.blank, rfl, rfl, hjoint .newline, rfl, rfl⟩
  | carriage hhead =>
    have hsplit := (Glyph.carriage hhead).splitFrom_joint .carriage pos s
    exact ⟨s.blank, hsplit, rfl, hjoint .carriage, rfl, rfl⟩
  | both => exact ⟨s.blank, rfl, rfl, hjoint .both, rfl, rfl⟩
  | @escaped c _ hnewline hcarriage =>
    have hsize : pos + 1 + c.utf8Size = pos + String.utf8Len ['\\', c] := by
      rw [String.utf8Len_cons, String.utf8Len_cons, String.utf8Len_nil,
        show '\\'.utf8Size = 1 from rfl]
      omega
    refine ⟨s.pushEscaped pos c, ?_, rfl, rfl, ?_, rfl⟩
    · rw [List.cons_append, List.cons_append, List.nil_append, splitFrom_escaped hnewline hcarriage,
        hsize]
    · rw [if_neg (by simp [show Text.isBlank '\\' = false from rfl])]
      exact hsize
  | backslash =>
    refine ⟨(s.track '\\').push pos '\\', ?_, ?_, ?_, ?_, ?_⟩
    · exact splitFrom_plain (fun _ => rfl) (by decide) (by decide) (fun h => absurd h (by decide))
        (hs.imp_right fun _ => by decide)
    · rfl
    · rfl
    · rfl
    · rfl
  | @«break» c _ hbreak =>
    have hblank : Text.isBlank c := by obtain rfl | rfl := hbreak <;> rfl
    have hstart : s.start.isSome := by
      refine hs.resolve_right fun ⟨_, d, cs, hd, hnot, _⟩ => ?_
      obtain rfl : c = d := (List.cons.inj hd).1
      simp [hblank] at hnot
    obtain ⟨a, ha⟩ := Option.isSome_iff_exists.mp hstart
    refine ⟨s.blank, ?_, rfl, ?_, rfl, ?_⟩
    · rw [List.singleton_append, splitFrom_break hbreak hstart]
      · simp
      · rintro rfl
        exact nested_of_ne_outside (hn (Or.inl rfl))
    · simp [Scan.blank, ha]
    · obtain rfl | rfl := hbreak <;> rfl
  | @plain c _ hescape hnewline hcarriage =>
    refine ⟨(s.track c).push pos c, ?_, ?_, ?_, ?_, ?_⟩
    · rw [List.singleton_append, splitFrom_plain (fun h => absurd h hescape) hnewline hcarriage]
      · simp
      · rintro rfl
        exact nested_of_ne_outside (hn (Or.inr rfl))
      · refine hs.imp_right fun ⟨_, d, cs, hd, hopening⟩ => ?_
        obtain rfl : c = d := (List.cons.inj hd).1
        exact hopening
    · simp [Scan.push, Scan.track_text]
    · simp [Scan.push, Scan.track_start]
    · simp [Scan.push, Scan.track_stop]
    · rw [Nesting.after, Nesting.after, ← Scan.nesting_track]
      · rfl
      · simp [hescape]

end ClockTree.Script
