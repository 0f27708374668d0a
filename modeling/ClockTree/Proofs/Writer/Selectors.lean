import ClockTree.Proofs.Script.Sentences
import ClockTree.Writer.Line

/-!
# Written queries

A query by names is one substitution. Objects of several kinds are written as a list of such
substitutions, which is one token of a command like the substitution of a query, but it is read as
no argument, as the reader knows no substitution with this name.
-/
namespace ClockTree.Writer
open Script

/-! ### A query -/

def writtenNames (names : List String) : List Char :=
  [' '].intercalate (names.map fun n => (writeWord n).toList)

def writtenPatterns (names : List String) : List String :=
  names.flatMap fun n => Text.words (writeWord n)

structure Queried (names : List String) : Prop where
  sheltered : ∀ n ∈ names, Sheltered n
  brackets : ∀ n ∈ names, Enclosure.bracket.balances 0 n.toList
  head : (" ".intercalate (names.map writeWord)).toList.head? ≠ some '-'

instance : DecidablePred Queried := fun _ =>
  decidable_of_iff (_ ∧ _ ∧ _) ⟨fun h => ⟨h.1, h.2.1, h.2.2⟩,
    fun h => ⟨h.sheltered, h.brackets, h.head⟩⟩

theorem toList_selector (kind : ObjectKind) (names : List String) :
    (selector kind names).toList = '[' :: (queryText kind (writtenNames names) ++ [']']) := by
  simp [selector, queryText, writtenNames, writeList, String.toList_intercalate, Function.comp_def]

namespace Queried
variable {names : List String}

theorem passes_writtenNames (h : Queried names) (k : Nat) :
    Passes ⟨1, k, false⟩ (writtenNames names) ⟨1, k, false⟩ := by
  refine .intercalate fun cs hcs => ?_
  obtain ⟨n, hn, rfl⟩ := List.mem_map.mp hcs
  exact (h.sheltered n hn).passes 1 k

theorem balances_writtenNames (h : Queried names) :
    Enclosure.bracket.balances 0 (writtenNames names) := by
  refine Enclosure.balances_intercalate (by decide) fun cs hcs => ?_
  obtain ⟨n, hn, rfl⟩ := List.mem_map.mp hcs
  exact (h.sheltered n hn).balances_bracket (h.brackets n hn)

theorem passes (h : Queried names) (kind : ObjectKind) (k : Nat) :
    Passes ⟨0, k, false⟩ (selector kind names).toList ⟨0, k, false⟩ := by
  have hclose : Passes ⟨0, k + 1, false⟩ [']'] ⟨0, k, false⟩ := .cons (by decide) (.nil _)
  rw [toList_selector]
  exact .cons (by decide)
    ((passes_queryText kind (k + 1) (h.passes_writtenNames (k + 1))).append hclose)

theorem denotes (h : Queried names) (kind : ObjectKind) :
    Denotes (selector kind names).toList (.bracket (queryText kind (writtenNames names))) := by
  rw [toList_selector]
  exact denotes_query kind (h.passes_writtenNames 1) h.balances_writtenNames

theorem readArgument {kind : ObjectKind} (h : Queried names) (hkind : kind ≠ .objects) :
    readArgument (.bracket (queryText kind (writtenNames names))) =
      .ok (.query ⟨kind, writtenPatterns names⟩) := by
  have hlist : Enclosure.brace.balances 0 (writtenNames names) := by
    refine Enclosure.balances_intercalate (by decide) fun cs hcs => ?_
    obtain ⟨n, hn, rfl⟩ := List.mem_map.mp hcs
    exact (h.sheltered n hn).balances_brace
  have htext : writtenNames names = (" ".intercalate (names.map writeWord)).toList := by
    simp [writtenNames, String.toList_intercalate, Function.comp_def]
  have hhead := h.head
  rw [← htext] at hhead
  rw [Script.readArgument, Piece.readQuery_list hkind hlist hhead, htext,
    String.ofList_toList, Text.words, Text.runs_intercalate (by decide), List.flatMap_map]
  rfl

theorem of_plain {kind : ObjectKind} (h : (Piece.query kind names).Plain) : Queried names := by
  obtain ⟨-, hne, hnames⟩ := h
  have hwords : names.map writeWord = names :=
    (List.map_congr_left fun n hn => writeWord_of_plain (hnames n hn).1).trans (List.map_id' names)
  refine ⟨fun n hn => .of_plain (hnames n hn).1, fun n hn => ?_, ?_⟩
  · exact Enclosure.balances_of_inert fun c hc => inert_of_plain ((hnames n hn).1.2 c hc)
  · rw [hwords]
    exact Piece.head?_intercalate hne fun n hn => ⟨(hnames n hn).1.1, (hnames n hn).2⟩

end Queried

/-! ### A list of queries -/

def listText (qs : List Query) : List Char :=
  [' '].intercalate ("list".toList :: qs.map fun q => (selector q.kind q.patterns).toList)

section
variable {qs : List Query} (h : ∀ q ∈ qs, Queried q.patterns)
include h

theorem denotes_list : Denotes ('[' :: (listText qs ++ [']'])) (.bracket (listText qs)) := by
  have hlist : Script.Plain "list" := by decide
  refine .of_enclosed (e := .bracket) (by decide)
    (.intercalate (List.forall_mem_cons.mpr ⟨.of_plain hlist, fun cs hcs => ?_⟩))
    (Enclosure.balances_intercalate (by decide) (List.forall_mem_cons.mpr
      ⟨Enclosure.balances_of_inert fun c hc => inert_of_plain (hlist.2 c hc), fun cs hcs => ?_⟩))
  · obtain ⟨q, hq, rfl⟩ := List.mem_map.mp hcs
    exact (h q hq).passes q.kind 1
  · obtain ⟨q, hq, rfl⟩ := List.mem_map.mp hcs
    rw [toList_selector]
    exact Enclosure.balances_append (k := 0)
      (balances_queryText q.kind (h q hq).balances_writtenNames) 1 [']']

theorem readArgument_list :
    readArgument (.bracket (listText qs)) = .error (.unsupported (String.ofList (listText qs))) := by
  let parts : List (List Char × Token) := ("list".toList, .word "list".toList) ::
    qs.map fun q => ((selector q.kind q.patterns).toList,
      .bracket (queryText q.kind (writtenNames q.patterns)))
  have hspells : ∀ p ∈ parts, Spells p.1 p.2 := by
    refine List.forall_mem_cons.mpr ⟨.of_plain (by decide), fun p hp => ?_⟩
    obtain ⟨q, hq, rfl⟩ := List.mem_map.mp hp
    exact ((h q hq).denotes q.kind).spells
  have htokens := tokensOf_spelled hspells
  have htext : [' '].intercalate (parts.map Prod.fst) = listText qs := by
    simp [parts, listText, Function.comp_def]
  rw [htext] at htokens
  have hcommand : ObjectKind.ofCommand? "list" = none := rfl
  simp only [readArgument, readQuery, tokenizeLine, htokens, parts, List.map_cons,
    String.ofList_toList, hcommand, bind, Except.bind, Except.map]

end

end ClockTree.Writer
