import ClockTree.Command.Execute
import ClockTree.Proofs.Script.Words
import ClockTree.Script.Splitter
import Mathlib.Tactic.SplitIfs

/-!
# Lines of a script

A line is the name of a command and pieces that each stand for an argument: plain words, lists of
plain words, and queries by plain words. A text of lines is split into its lines, as each of them
closes what it opens.
-/
namespace ClockTree.Script

inductive Piece where
  | word (text : String)
  | list (elements : List String)
  | query (kind : ObjectKind) (patterns : List String)

namespace Piece

def text : Piece → String
  | .word w => w
  | .list ws => "\x7b" ++ " ".intercalate ws ++ "\x7d"
  | .query kind ws => "[" ++ kind.command ++ " \x7b" ++ " ".intercalate ws ++ "\x7d]"

def argument : Piece → Argument
  | .word w => .word w
  | .list ws => .word (" ".intercalate ws)
  | .query kind ws => .query ⟨kind, ws⟩

/-- The queries of a script have a command of their own, and a pattern is no option. -/
def Plain : Piece → Prop
  | .word w => Script.Plain w
  | .list ws => ∀ w ∈ ws, Script.Plain w
  | .query kind ws => kind ≠ .objects ∧ ws ≠ [] ∧ ∀ w ∈ ws, Script.Plain w ∧ w.toList.head? ≠ some '-'

end Piece

structure Line where
  command : Command
  pieces : List Piece

def Line.text (l : Line) : String := " ".intercalate (l.command.name :: l.pieces.map Piece.text)

def Line.Plain (l : Line) : Prop := ∀ p ∈ l.pieces, p.Plain

/-! ### Splitting -/

structure Nesting where
  braces : Nat
  brackets : Nat
  quoted : Bool
deriving DecidableEq

def Nesting.outside : Nesting := ⟨0, 0, false⟩

def Nesting.track (n : Nesting) (c : Char) : Nesting :=
  let s := Scan.track { braces := n.braces, brackets := n.brackets, quoted := n.quoted } c
  ⟨s.braces, s.brackets, s.quoted⟩

def Scan.nesting (s : Scan) : Nesting := ⟨s.braces, s.brackets, s.quoted⟩

theorem Scan.nesting_track (s : Scan) (c : Char) : (s.track c).nesting = s.nesting.track c := by
  unfold Scan.nesting Nesting.track Scan.track
  dsimp only
  split_ifs <;> rfl

theorem Scan.track_text (s : Scan) (c : Char) : (s.track c).text = s.text := by
  unfold Scan.track
  split_ifs <;> rfl

theorem Scan.track_start (s : Scan) (c : Char) : (s.track c).start = s.start := by
  unfold Scan.track
  split_ifs <;> rfl

theorem Scan.track_stop (s : Scan) (c : Char) : (s.track c).stop = s.stop := by
  unfold Scan.track
  split_ifs <;> rfl

/-- Characters that only get collected once a command has begun. -/
def Quiet (c : Char) : Prop := c ≠ '\\' ∧ c ≠ '\n' ∧ c ≠ '\r' ∧ c ≠ ';'

instance : DecidablePred Quiet := fun _ => inferInstanceAs (Decidable (_ ∧ _))

theorem Scan.isNone_eq_false {s : Scan} (h : s.start.isSome) : s.start.isNone = false := by
  cases hs : s.start <;> simp [hs] at h ⊢

theorem splitFrom_plain {pos : Nat} {s : Scan} {c : Char} {rest : List Char}
    (hescape : c = '\\' → rest = []) (hnewline : c ≠ '\n') (hreturn : c ≠ '\r')
    (hsemicolon : c = ';' → s.nested)
    (hstart : s.start.isSome ∨ Text.isBlank c = false ∧ c ≠ ';' ∧ c ≠ '#') :
    splitFrom pos s (c :: rest) = splitFrom (pos + c.utf8Size) ((s.track c).push pos c) rest := by
  rw [splitFrom]
  · have hidle : ¬ (s.start.isNone ∧ (Text.isBlank c ∨ c = ';')) := by
      obtain h | ⟨hblank, hsemicolon, -⟩ := hstart
      · simp [Scan.isNone_eq_false h]
      · simp [hblank, hsemicolon]
    have hcomment : ¬ (s.start.isNone ∧ c = '#') := by
      obtain h | ⟨-, -, hcomment⟩ := hstart
      · simp [Scan.isNone_eq_false h]
      · simp [hcomment]
    have hending : ¬ ((c = '\n' ∨ c = ';') ∧ !s.nested) := by
      rintro ⟨rfl | rfl, h⟩
      · exact hnewline rfl
      · simp [hsemicolon] at h
    rw [if_neg hidle, if_neg hcomment, if_neg hending, if_neg (by simp [hnewline, hreturn])]
  all_goals grind

theorem splitFrom_push {pos : Nat} {s : Scan} {c : Char} {rest : List Char} (hc : Quiet c)
    (hstart : s.start.isSome ∨ Text.isBlank c = false ∧ c ≠ '#') :
    splitFrom pos s (c :: rest) = splitFrom (pos + c.utf8Size) ((s.track c).push pos c) rest := by
  obtain ⟨hescape, hnewline, hreturn, hsemicolon⟩ := hc
  exact splitFrom_plain (fun h => absurd h hescape) hnewline hreturn
    (fun h => absurd h hsemicolon) (hstart.imp_right fun h => ⟨h.1, hsemicolon, h.2⟩)

theorem splitFrom_ending {pos : Nat} {s : Scan} {c : Char} {rest : List Char}
    (hc : c = '\n' ∨ c = ';') (hstart : s.start.isSome) (hnested : s.nested = false) :
    splitFrom pos s (c :: rest) =
      s.command?.toList ++ splitFrom (pos + c.utf8Size) s.next rest := by
  have hnone := Scan.isNone_eq_false hstart
  rw [splitFrom]
  · rw [if_neg (by simp [hnone]), if_neg (by simp [hnone]), if_pos (by simp [hc, hnested])]
  all_goals grind

theorem splitFrom_append (pos : Nat) {s : Scan} {cs : List Char} (hstart : s.start.isSome)
    (hcs : ∀ c ∈ cs, Quiet c) (rest : List Char) : ∃ pos' s',
      splitFrom pos s (cs ++ rest) = splitFrom pos' s' rest ∧ s'.start.isSome ∧
        s'.text = cs.reverse ++ s.text ∧ s'.nesting = cs.foldl Nesting.track s.nesting := by
  induction cs generalizing pos s with
  | nil => exact ⟨pos, s, rfl, hstart, rfl, rfl⟩
  | cons c cs ih =>
    obtain ⟨hc, hcs⟩ := List.forall_mem_cons.mp hcs
    have hnext : ((s.track c).push pos c).start.isSome := by
      rw [Scan.push, Scan.track_start]
      cases h : s.start <;> simp
    obtain ⟨pos', s', hsplit, hstart', htext, hnesting⟩ := ih (pos + c.utf8Size) hnext hcs
    refine ⟨pos', s', ?_, hstart', ?_, ?_⟩
    · rw [List.cons_append, splitFrom_push hc (Or.inl hstart), hsplit]
    · rw [htext, Scan.push, Scan.track_text]
      simp
    · rw [hnesting, List.foldl_cons, ← Scan.nesting_track]
      rfl

def Passes (n : Nesting) (cs : List Char) (n' : Nesting) : Prop :=
  ∀ (pos : Nat) (s : Scan) (rest : List Char), s.start.isSome → s.nesting = n →
    ∃ pos' s', splitFrom pos s (cs ++ rest) = splitFrom pos' s' rest ∧ s'.start.isSome ∧
      s'.text = cs.reverse ++ s.text ∧ s'.nesting = n'

namespace Passes
variable {n n' n'' : Nesting} {cs ds : List Char}

theorem nil (n : Nesting) : Passes n [] n := fun pos s _ hstart hn =>
  ⟨pos, s, rfl, hstart, rfl, hn⟩

theorem append (h : Passes n cs n') (h' : Passes n' ds n'') : Passes n (cs ++ ds) n'' := by
  intro pos s rest hstart hn
  obtain ⟨pos', s', hsplit, hstart', htext, hn'⟩ := h pos s (ds ++ rest) hstart hn
  obtain ⟨pos'', s'', hsplit', hstart'', htext', hn''⟩ := h' pos' s' rest hstart' hn'
  refine ⟨pos'', s'', ?_, hstart'', ?_, hn''⟩
  · rw [List.append_assoc, hsplit, hsplit']
  · rw [htext', htext, List.reverse_append, List.append_assoc]

theorem of_quiet (h : ∀ c ∈ cs, Quiet c) : Passes n cs (cs.foldl Nesting.track n) := by
  rintro pos s rest hstart rfl
  exact splitFrom_append pos hstart h rest

theorem cons {c : Char} (hc : Quiet c) (h : Passes (n.track c) cs n') : Passes n (c :: cs) n' :=
  append (of_quiet (List.forall_mem_singleton.mpr hc)) h

end Passes

theorem Scan.nested_of_outside {s : Scan} (h : s.nesting = .outside) : s.nested = false := by
  simp only [Scan.nesting, Nesting.outside, Nesting.mk.injEq] at h
  simp [Scan.nested, h.1, h.2.1, h.2.2]

theorem reverse_dropWhile {p : Char → Bool} {cs : List Char}
    (h : ∀ c, cs.getLast? = some c → p c = false) : cs.reverse.dropWhile p = cs.reverse := by
  cases hreverse : cs.reverse with
  | nil => rfl
  | cons c rest =>
    have hlast : cs.getLast? = some c := by
      rw [← List.head?_reverse, hreverse]
      rfl
    rw [List.dropWhile_cons_of_neg (by simp [h c hlast])]

structure Scan.Fresh (s : Scan) : Prop where
  text : s.text = []
  start : s.start = none
  nesting : s.nesting = .outside

structure Single (cs : List Char) : Prop where
  first : ∃ c rest, cs = c :: rest ∧ Quiet c ∧ Text.isBlank c = false ∧ c ≠ '#' ∧
    Passes (Nesting.outside.track c) rest .outside
  last : ∀ c, cs.getLast? = some c → Text.isBlank c = false

theorem splitFrom_line (pos : Nat) {s : Scan} {cs : List Char} (h : Single cs) (hs : s.Fresh)
    (rest : List Char) : ∃ pos' s' st, splitFrom pos s (cs ++ '\n' :: rest) =
        st :: splitFrom pos' s' rest ∧ st.text = cs ∧ s'.Fresh := by
  obtain ⟨c, cs, rfl, hc, hblank, hcomment, hpasses⟩ := h.first
  have hpushed : ((s.track c).push pos c).start.isSome := by
    rw [Scan.push, Scan.track_start, hs.start]
    rfl
  have hnesting : ((s.track c).push pos c).nesting = Nesting.outside.track c := by
    rw [← hs.nesting, ← Scan.nesting_track]
    rfl
  obtain ⟨pos', s', hsplit, hstart, htext, houtside⟩ := hpasses (pos + c.utf8Size) _ ('\n' :: rest)
    hpushed hnesting
  have hline : s'.text = (c :: cs).reverse := by
    rw [htext, Scan.push, Scan.track_text, hs.text]
    simp
  -- nothing is dropped from the end of the command
  have hdrop := reverse_dropWhile h.last
  obtain ⟨start, hsome⟩ := Option.isSome_iff_exists.mp hstart
  refine ⟨pos' + '\n'.utf8Size, s'.next, ⟨c :: cs, start, s'.stop⟩, ?_, rfl, rfl, rfl, houtside⟩
  rw [List.cons_append, splitFrom_push hc (Or.inr ⟨hblank, hcomment⟩), hsplit,
    splitFrom_ending (Or.inl rfl) hstart (Scan.nested_of_outside houtside)]
  simp only [Scan.command?, hsome, hline, hdrop, Option.map_some, List.reverse_reverse,
    Option.toList_some, List.singleton_append]

theorem split_lines {pos : Nat} {s : Scan} {lines : List (List Char)} (h : ∀ l ∈ lines, Single l)
    (hs : s.Fresh) :
    (splitFrom pos s (lines.flatMap (· ++ ['\n']))).map (·.text) = lines := by
  induction lines generalizing pos s with
  | nil => simp [splitFrom, Scan.command?, hs.start]
  | cons l lines ih =>
    obtain ⟨hl, hlines⟩ := List.forall_mem_cons.mp h
    obtain ⟨pos', s', st, hsplit, htext, hs'⟩ :=
      splitFrom_line pos hl hs (lines.flatMap (· ++ ['\n']))
    rw [List.flatMap_cons, List.append_assoc, List.singleton_append, hsplit, List.map_cons, htext,
      ih hlines hs']

/-! ### Characters of plain words -/

def Inert (c : Char) : Prop := c ≠ '\x7b' ∧ c ≠ '\x7d' ∧ c ≠ '[' ∧ c ≠ ']' ∧ c ≠ '"'

instance : DecidablePred Inert := fun _ => inferInstanceAs (Decidable (_ ∧ _))

theorem foldl_track_inert {cs : List Char} (h : ∀ c ∈ cs, Inert c) (n : Nesting) :
    cs.foldl Nesting.track n = n := by
  induction cs generalizing n with
  | nil => rfl
  | cons c cs ih =>
    obtain ⟨⟨h1, h2, h3, h4, h5⟩, hcs⟩ := List.forall_mem_cons.mp h
    have htrack : n.track c = n := by
      simp only [Nesting.track, Scan.track, h1, h2, h3, h4, h5, if_false]
    rw [List.foldl_cons, htrack, ih hcs]

theorem inert_of_plain {c : Char} (h : isSpecial c = false) : Inert c := by
  obtain ⟨h1, h2, h3, h4, h5, -⟩ := ne_of_plain h
  exact ⟨h1, h2, h3, h4, h5⟩

theorem quiet_of_plain {c : Char} (h : isSpecial c = false) : Quiet c := by
  obtain ⟨-, -, -, -, -, h1, h2, -, h3, h4⟩ := ne_of_plain h
  exact ⟨h1, h3, h4, h2⟩

theorem mem_intercalate {ws : List String} {c : Char} (h : c ∈ (" ".intercalate ws).toList) :
    c = ' ' ∨ ∃ w ∈ ws, c ∈ w.toList := by
  induction ws with
  | nil => simp at h
  | cons w ws ih =>
    cases ws with
    | nil =>
      rw [String.intercalate_singleton] at h
      exact Or.inr ⟨w, List.mem_singleton_self w, h⟩
    | cons w' ws =>
      rw [String.intercalate_cons_cons, String.toList_append, String.toList_append] at h
      obtain h | h := List.mem_append.mp h
      · obtain h | h := List.mem_append.mp h
        · exact Or.inr ⟨w, List.mem_cons_self, h⟩
        · exact Or.inl (by simpa using h)
      · obtain h | ⟨w'', hw'', h⟩ := ih h
        · exact Or.inl h
        · exact Or.inr ⟨w'', List.mem_cons_of_mem w hw'', h⟩

theorem plain_of_mem_intercalate {ws : List String} (hws : ∀ w ∈ ws, Plain w) {c : Char}
    (h : c ∈ (" ".intercalate ws).toList) : c = ' ' ∨ isSpecial c = false := by
  obtain h | ⟨w, hw, h⟩ := mem_intercalate h
  · exact Or.inl h
  · exact Or.inr ((hws w hw).2 c h)

theorem inert_of_mem_intercalate {ws : List String} (hws : ∀ w ∈ ws, Plain w) {c : Char}
    (h : c ∈ (" ".intercalate ws).toList) : Inert c := by
  obtain rfl | h := plain_of_mem_intercalate hws h
  · decide
  · exact inert_of_plain h

theorem quiet_of_mem_intercalate {ws : List String} (hws : ∀ w ∈ ws, Plain w) {c : Char}
    (h : c ∈ (" ".intercalate ws).toList) : Quiet c := by
  obtain rfl | h := plain_of_mem_intercalate hws h
  · decide
  · exact quiet_of_plain h

theorem plain_command (kind : ObjectKind) : Plain kind.command := by
  cases kind <;> decide

theorem Piece.toList_list (ws : List String) : (Piece.list ws).text.toList =
    '\x7b' :: ((" ".intercalate ws).toList ++ ['\x7d']) := by
  simp [Piece.text]

theorem plain_name (command : Command) : Plain command.name := by
  cases command <;> decide

theorem Line.toList_text (l : Line) : l.text.toList =
    [' '].intercalate (l.command.name.toList :: l.pieces.map (·.text.toList)) := by
  rw [Line.text, String.toList_intercalate, List.map_cons, List.map_map]
  rfl

theorem split_join {lines : List String} (h : ∀ l ∈ lines, Single l.toList) :
    (split (String.join (lines.map (· ++ "\n")))).map (·.text) = lines.map String.toList := by
  have htext : (String.join (lines.map (· ++ "\n"))).toList =
      (lines.map String.toList).flatMap (· ++ ['\n']) := by
    rw [String.toList_join, List.flatMap_map, List.flatMap_map]
    simp
  rw [split, htext]
  exact split_lines (List.forall_mem_map.mpr h) ⟨rfl, rfl, rfl⟩

end ClockTree.Script
