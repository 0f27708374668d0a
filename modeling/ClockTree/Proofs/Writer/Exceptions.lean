import ClockTree.Proofs.Number.Decimal
import ClockTree.Proofs.Session.References
import ClockTree.Proofs.Writer.Selectors

/-!
# Reading the line of an exception

The text of an exception with names that can be read back is a sentence. The end of a path that is
one query is read as this query, and an end that is a list of queries is refused; so the line is
carried out if every end is one query, and it is malformed otherwise.
-/
namespace ClockTree
open Script Command Command.Constrain Writer

/-! ### The sentence -/

theorem Script.sentence_eq (command : Command) (parts : List (List Char × Token)) :
    sentence command parts = command.name.toList ++ parts.flatMap fun p => ' ' :: p.1 := by
  unfold sentence
  generalize command.name.toList = cs
  induction parts generalizing cs with
  | nil => simp
  | cons p parts ih =>
    rw [List.map_cons, List.intercalate_cons_cons, ih, List.flatMap_cons]
    simp

def Selection.part : Selection → List Char × Token
  | [q] => plainPart (.query q.kind q.patterns)
  | qs => ('[' :: (listText qs ++ [']']), .bracket (listText qs))

def Selection.endParts (option : String) : Option Selection → List (List Char × Token)
  | none => []
  | some s => [plainPart (.word option), Selection.part s]

def Endpoints.parts (e : Endpoints) : List (List Char × Token) :=
  Selection.endParts "-from" e.start ++ Selection.endParts "-through" e.through ++
    Selection.endParts "-to" e.stop

namespace TimingException

def keyword : TimingException → Command
  | .falsePath _ => .setFalsePath
  | .maxDelay .. => .setMaxDelay
  | .clockGroups .. => .setClockGroups

def parts (places : Nat) : TimingException → List (List Char × Token)
  | .falsePath ends => ends.parts
  | .maxDelay delay ends => plainPart (.word (Number.trimmed places delay)) :: ends.parts
  | .clockGroups relation groups =>
    (relationPieces relation ++ groups.flatMap groupPieces).map plainPart

theorem mem_queries {e : TimingException} {s : Selection} (hs : s ∈ e.selections) {q : Query}
    (hq : q ∈ s) : q ∈ e.queries := by
  cases e with
  | falsePath ends => exact List.mem_flatten_of_mem hs hq
  | maxDelay delay ends => exact List.mem_flatten_of_mem hs hq
  | clockGroups relation groups => cases hs

structure Readable (e : TimingException) : Prop where
  queries : ∀ q ∈ e.queries, (Piece.query q.kind q.patterns).Plain
  selections : ∀ s ∈ e.selections, s ≠ []
  recorded : e.Recorded

theorem Readable.ends {e : TimingException} (h : e.Readable) :
    ∀ s ∈ e.selections, ∀ q ∈ s, (Piece.query q.kind q.patterns).Plain :=
  fun _ hs q hq => h.queries q (mem_queries hs hq)

end TimingException

section
variable {places : Nat}

theorem toList_selectionText {s : Selection} (hne : s ≠ [])
    (h : ∀ q ∈ s, (Piece.query q.kind q.patterns).Plain) :
    (Selection.text s).toList = (Selection.part s).1 := by
  match s with
  | [q] =>
    obtain ⟨-, -, hnames⟩ := h q List.mem_cons_self
    exact congrArg String.toList (selector_of_plain q.kind fun n hn => (hnames n hn).1)
  | q :: q' :: qs =>
    simp [Selection.text, Selection.part, listText, String.toList_intercalate, Function.comp_def,
      Query.selector]

theorem toList_optionText {option : String} {s : Option Selection} (hne : ∀ x ∈ s, x ≠ [])
    (h : ∀ x ∈ s, ∀ q ∈ x, (Piece.query q.kind q.patterns).Plain) :
    (Selection.optionText option s).toList =
      (Selection.endParts option s).flatMap fun p => ' ' :: p.1 := by
  cases s with
  | none => rfl
  | some s =>
    simp [Selection.optionText, Selection.endParts, toList_selectionText (hne s rfl) (h s rfl),
      plainPart, Piece.text]

theorem toList_endsText {ends : Endpoints} (hne : ∀ s ∈ ends.selections, s ≠ [])
    (h : ∀ s ∈ ends.selections, ∀ q ∈ s, (Piece.query q.kind q.patterns).Plain) :
    ends.text.toList = ends.parts.flatMap fun p => ' ' :: p.1 := by
  simp only [Endpoints.mem_selections] at hne h
  rw [Endpoints.text, Endpoints.parts, String.toList_append, String.toList_append,
    List.flatMap_append, List.flatMap_append,
    toList_optionText (fun s hs => hne s (.inl hs)) fun s hs => h s (.inl hs),
    toList_optionText (fun s hs => hne s (.inr (.inl hs))) fun s hs => h s (.inr (.inl hs)),
    toList_optionText (fun s hs => hne s (.inr (.inr hs))) fun s hs => h s (.inr (.inr hs))]

theorem toList_piecesText (ps : List Piece) :
    (piecesText ps).toList = (ps.map plainPart).flatMap fun p => ' ' :: p.1 := by
  simp [piecesText, String.toList_join, List.flatMap_map, plainPart]

theorem TimingException.toList_text {e : TimingException} (h : e.Readable) (places : Nat) :
    (e.text places).toList = sentence e.keyword (e.parts places) := by
  have hends := h.ends
  have hne := h.selections
  have hqueries := h.queries
  rw [sentence_eq]
  cases e with
  | falsePath ends =>
    have hends := toList_endsText hne hends
    simp only [text, String.toList_append, hends]
    rfl
  | maxDelay delay ends =>
    have hends := toList_endsText hne hends
    simp only [text, String.toList_append, hends]
    simp [parts, plainPart, Piece.text, TimingException.command, keyword, Command.name]
  | clockGroups relation groups =>
    have hplain : ∀ names ∈ groups, ∀ n ∈ names, Script.Plain n := fun names hnames n hn =>
      ((hqueries _ (List.mem_map_of_mem hnames)).2.2 n hn).1
    rw [parts, ← toList_piecesText, piecesText_append, View.piecesText_groups hplain,
      View.relationPieces_text, ← String.toList_append]
    simp only [text, ← String.append_assoc]
    rfl

/-! ### Reading the sentence -/

theorem part_of_list {s : Selection} (hne : s ≠ []) (hlist : s.length ≠ 1) :
    Selection.part s = ('[' :: (listText s ++ [']']), .bracket (listText s)) := by
  match s with
  | [q] => exact absurd rfl hlist
  | q :: q' :: qs => rfl

theorem exists_endPieces (option : String) (hoption : Script.Plain option) {s : Option Selection}
    (h : ∀ x ∈ s, ∀ q ∈ x, (Piece.query q.kind q.patterns).Plain) (hsingle : ∀ x ∈ s, x.length = 1) :
    ∃ q : Option Query, q.map ([·]) = s ∧ (∀ p ∈ endPieces option q, p.Plain) ∧
      Selection.endParts option s = (endPieces option q).map plainPart := by
  cases s with
  | none => exact ⟨none, rfl, List.forall_mem_nil _, rfl⟩
  | some s =>
    obtain ⟨q, rfl⟩ := List.length_eq_one_iff.mp (hsingle s rfl)
    have hquery := h [q] rfl q List.mem_cons_self
    exact ⟨some q, rfl,
      List.forall_mem_cons.mpr ⟨hoption, List.forall_mem_singleton.mpr hquery⟩, rfl⟩

theorem exists_queryEnds {ends : Endpoints}
    (h : ∀ s ∈ ends.selections, ∀ q ∈ s, (Piece.query q.kind q.patterns).Plain)
    (hsingle : ∀ s ∈ ends.selections, s.length = 1) :
    ∃ e : QueryEnds, e.endpoints = ends ∧ (∀ p ∈ e.pieces, p.Plain) ∧
      ends.parts = e.pieces.map plainPart := by
  simp only [Endpoints.mem_selections] at h hsingle
  obtain ⟨start, hstart, hplain, hparts⟩ := exists_endPieces "-from" (by decide)
    (fun s hs => h s (.inl hs)) fun s hs => hsingle s (.inl hs)
  obtain ⟨through, hthrough, hplain', hparts'⟩ := exists_endPieces "-through" (by decide)
    (fun s hs => h s (.inr (.inl hs))) fun s hs => hsingle s (.inr (.inl hs))
  obtain ⟨stop, hstop, hplain'', hparts''⟩ := exists_endPieces "-to" (by decide)
    (fun s hs => h s (.inr (.inr hs))) fun s hs => hsingle s (.inr (.inr hs))
  refine ⟨⟨start, through, stop⟩, ?_, ?_, ?_⟩
  · rw [QueryEnds.endpoints, hstart, hthrough, hstop]
  · exact List.forall_mem_append.mpr ⟨List.forall_mem_append.mpr ⟨hplain, hplain'⟩, hplain''⟩
  · rw [Endpoints.parts, hparts, hparts', hparts'', QueryEnds.pieces, List.map_append,
      List.map_append]

theorem TimingException.Readable.exists_line {e : TimingException} (h : e.Readable) (places : Nat)
    (hsingle : ∀ s ∈ e.selections, s.length = 1) :
    ∃ l : Line, l.Plain ∧ l.text.toList = (e.text places).toList ∧ ∃ e' : TimingException,
      ∀ s : Session, s.perform l.command (l.pieces.map Piece.argument) =
        (s.addException e', .ok .nothing) := by
  have hline : ∀ pieces : List Piece, e.parts places = pieces.map plainPart →
      (Line.mk e.keyword pieces).text.toList = (e.text places).toList := fun pieces hpieces => by
    rw [TimingException.toList_text h, hpieces, Line.toList_sentence]
  have hends := h.ends
  have hqueries := h.queries
  cases e with
  | falsePath ends =>
    obtain ⟨q, rfl, hplain, hparts⟩ := exists_queryEnds hends hsingle
    refine ⟨⟨.setFalsePath, q.pieces⟩, hplain, hline _ hparts, .falsePath q.endpoints, fun s => ?_⟩
    simp only [Session.perform, falsePath_written, Session.record]
  | maxDelay delay ends =>
    obtain ⟨q, rfl, hplain, hparts⟩ := exists_queryEnds hends hsingle
    obtain ⟨y, hread, hy⟩ := Number.exists_read h.recorded places
    refine ⟨⟨.setMaxDelay, .word (Number.trimmed places delay) :: q.pieces⟩,
      List.forall_mem_cons.mpr ⟨.of_read hread, hplain⟩, hline _ ?_, .maxDelay y q.endpoints,
      fun s => ?_⟩
    · rw [parts, hparts, List.map_cons]
    · simp only [Session.perform, maxDelay_written hread hy, Session.record]
  | clockGroups relation groups =>
    have hgroup : ∀ names ∈ groups, names ≠ [] ∧ ∀ n ∈ names, Script.Plain n :=
      fun names hnames =>
        have hquery := hqueries _ (List.mem_map_of_mem hnames)
        ⟨hquery.2.1, fun n hn => (hquery.2.2 n hn).1⟩
    refine ⟨⟨.setClockGroups, relationPieces relation ++ groups.flatMap groupPieces⟩, ?_,
      hline _ rfl, .clockGroups relation groups, fun s => ?_⟩
    · refine List.forall_mem_append.mpr ⟨View.relationPieces_plain relation, fun p hp => ?_⟩
      obtain ⟨names, hnames, hp⟩ := List.mem_flatMap.mp hp
      exact View.groupPieces_plain (hgroup names hnames).2 p hp
    · simp only [Session.perform, clockGroups_written relation h.recorded.1 hgroup, Session.record]

theorem mem_endParts {option : String} {s : Option Selection} {p : List Char × Token} :
    p ∈ Selection.endParts option s ↔
      s.isSome ∧ p = plainPart (.word option) ∨ ∃ x ∈ s, p = Selection.part x := by
  cases s <;> simp [Selection.endParts]

theorem Endpoints.part_mem {ends : Endpoints} {s : Selection} (hs : s ∈ ends.selections) :
    Selection.part s ∈ ends.parts := by
  simp only [Endpoints.parts, List.mem_append, mem_endParts]
  obtain hs | hs | hs := Endpoints.mem_selections.mp hs
  · exact Or.inl (Or.inl (Or.inr ⟨s, hs, rfl⟩))
  · exact Or.inl (Or.inr (Or.inr ⟨s, hs, rfl⟩))
  · exact Or.inr (Or.inr ⟨s, hs, rfl⟩)

theorem Endpoints.mem_parts {ends : Endpoints} {p : List Char × Token} (hp : p ∈ ends.parts) :
    (∃ w, Script.Plain w ∧ p = plainPart (.word w)) ∨
      ∃ s ∈ ends.selections, p = Selection.part s := by
  simp only [Endpoints.mem_selections]
  simp only [Endpoints.parts, List.mem_append, mem_endParts] at hp
  obtain ((⟨-, rfl⟩ | ⟨s, hs, rfl⟩) | ⟨-, rfl⟩ | ⟨s, hs, rfl⟩) | ⟨-, rfl⟩ | ⟨s, hs, rfl⟩ := hp
  · exact Or.inl ⟨_, by decide, rfl⟩
  · exact Or.inr ⟨s, Or.inl hs, rfl⟩
  · exact Or.inl ⟨_, by decide, rfl⟩
  · exact Or.inr ⟨s, Or.inr (Or.inl hs), rfl⟩
  · exact Or.inl ⟨_, by decide, rfl⟩
  · exact Or.inr ⟨s, Or.inr (Or.inr hs), rfl⟩

namespace TimingException
variable {e : TimingException}

theorem part_mem {s : Selection} (hs : s ∈ e.selections) : Selection.part s ∈ e.parts places := by
  cases e with
  | falsePath ends => exact Endpoints.part_mem hs
  | maxDelay delay ends => exact List.mem_cons_of_mem _ (Endpoints.part_mem hs)
  | clockGroups relation groups => cases hs

theorem Readable.mem_parts (h : e.Readable) {p : List Char × Token} (hp : p ∈ e.parts places) :
    (∃ piece : Piece, piece.Plain ∧ p = plainPart piece) ∨
      ∃ s ∈ e.selections, s.length ≠ 1 ∧ p = Selection.part s := by
  have hends : ∀ ends : Endpoints, e.selections = ends.selections → p ∈ ends.parts →
      (∃ piece : Piece, piece.Plain ∧ p = plainPart piece) ∨
        ∃ s ∈ e.selections, s.length ≠ 1 ∧ p = Selection.part s := by
    intro ends hselections hp
    obtain ⟨w, hw, rfl⟩ | ⟨s, hs, rfl⟩ := Endpoints.mem_parts hp
    · exact Or.inl ⟨.word w, hw, rfl⟩
    · rw [← hselections] at hs
      by_cases hlist : s.length = 1
      · obtain ⟨q, rfl⟩ := List.length_eq_one_iff.mp hlist
        exact Or.inl ⟨_, h.ends _ hs q List.mem_cons_self, rfl⟩
      · exact Or.inr ⟨s, hs, hlist, rfl⟩
  have hqueries := h.queries
  cases e with
  | falsePath ends => exact hends ends rfl hp
  | maxDelay delay ends =>
    obtain rfl | hp := List.mem_cons.mp hp
    · obtain ⟨y, hread, -⟩ := Number.exists_read h.recorded places
      have hplain := Script.Plain.of_read hread
      exact Or.inl ⟨.word _, hplain, rfl⟩
    · exact hends ends rfl hp
  | clockGroups relation groups =>
    obtain ⟨piece, hpiece, rfl⟩ := List.mem_map.mp hp
    refine Or.inl ⟨piece, ?_, rfl⟩
    obtain hpiece | hpiece := List.mem_append.mp hpiece
    · exact View.relationPieces_plain relation piece hpiece
    · obtain ⟨names, hnames, hpiece⟩ := List.mem_flatMap.mp hpiece
      exact View.groupPieces_plain
        (fun n hn => ((hqueries _ (List.mem_map_of_mem hnames)).2.2 n hn).1) piece hpiece

theorem Readable.queried (h : e.Readable) {s : Selection} (hs : s ∈ e.selections) :
    ∀ q ∈ s, Queried q.patterns := fun q hq => .of_plain (h.ends s hs q hq)

theorem Readable.denotes (h : e.Readable) : ∀ p ∈ e.parts places, Denotes p.1 p.2 := by
  intro p hp
  obtain ⟨piece, hpiece, rfl⟩ | ⟨s, hs, hlist, rfl⟩ := h.mem_parts hp
  · exact Piece.denotes hpiece
  · rw [part_of_list (h.selections s hs) hlist]
    exact denotes_list (h.queried hs)

theorem Readable.single (h : e.Readable) (places : Nat) : Single (e.text places).toList := by
  rw [toList_text h]
  exact single_sentence h.denotes

theorem Readable.exists_malformed (h : e.Readable) (places : Nat)
    (hlist : ∃ s ∈ e.selections, s.length ≠ 1) : ∃ s ∈ e.selections, s.length ≠ 1 ∧
      readCommand (e.text places).toList = .error (.unsupported (String.ofList (listText s))) := by
  have hrefused : ∀ s ∈ e.selections, s.length ≠ 1 → readArgument (Selection.part s).2 =
      .error (.unsupported (String.ofList (listText s))) := fun s hs hlist => by
    rw [part_of_list (h.selections s hs) hlist]
    exact readArgument_list (h.queried hs)
  rw [toList_text h, readCommand_sentence fun p hp => (h.denotes p hp).spells]
  obtain ⟨p, hp, reason, hreason, hmap⟩ | hall :=
    mapM_cases (fun p : List Char × Token => readArgument p.2) (e.parts places)
  · obtain ⟨piece, hpiece, rfl⟩ | ⟨s, hs, hlist, rfl⟩ := h.mem_parts hp
    · cases (Piece.readArgument_token hpiece).symm.trans hreason
    · rw [hrefused s hs hlist] at hreason
      obtain rfl := Except.error.inj hreason
      refine ⟨s, hs, hlist, ?_⟩
      rw [hmap]
      rfl
  · obtain ⟨s, hs, hlist⟩ := hlist
    obtain ⟨a, ha⟩ := hall _ (part_mem hs)
    cases (hrefused s hs hlist).symm.trans ha

end TimingException

end

end ClockTree
