import ClockTree.Proofs.Script.Lines

/-!
# Reading tokens

Texts that each spell a token are read as these tokens when they are separated by blanks. The token
of a piece is read as the argument for which the piece stands.
-/
namespace ClockTree.Script

theorem tokensFrom_bare {cs : List Char} (h : ∀ c ∈ cs, Text.isBlank c = false) (text : List Char)
    (rest : List Char) :
    tokensFrom (.bare text) (cs ++ rest) = tokensFrom (.bare (cs.reverse ++ text)) rest := by
  induction cs generalizing text with
  | nil => rfl
  | cons c cs ih =>
    obtain ⟨hc, hcs⟩ := List.forall_mem_cons.mp h
    rw [List.cons_append, tokensFrom, if_neg (by simp [hc]), ih hcs, List.reverse_cons,
      List.append_assoc]
    rfl

/-- Whether what the text opens is closed in it, with `depth` enclosures open before it. -/
def Enclosure.balances (e : Enclosure) : Nat → List Char → Bool
  | depth, [] => depth == 0
  | depth, c :: cs =>
    if c = e.closing then match depth with
      | 0 => false
      | depth + 1 => e.balances depth cs
    else if c = e.opening then e.balances (depth + 1) cs
    else e.balances depth cs

theorem Enclosure.ne_of_inert {c : Char} (e : Enclosure) (h : Inert c) :
    c ≠ e.closing ∧ c ≠ e.opening := by
  obtain ⟨hopen, hclose, hopen', hclose', hquote⟩ := h
  cases e with
  | brace => exact ⟨hclose, hopen⟩
  | bracket => exact ⟨hclose', hopen'⟩
  | quote => exact ⟨hquote, hquote⟩

theorem Enclosure.balances_of_inert {e : Enclosure} {cs : List Char} (h : ∀ c ∈ cs, Inert c) :
    e.balances 0 cs := by
  induction cs with
  | nil => rfl
  | cons c cs ih =>
    obtain ⟨hc, hcs⟩ := List.forall_mem_cons.mp h
    obtain ⟨hclosing, hopening⟩ := e.ne_of_inert hc
    rw [balances, if_neg hclosing, if_neg hopening]
    exact ih hcs

theorem tokensFrom_balanced {e : Enclosure} {depth : Nat} {cs : List Char}
    (h : e.balances depth cs) (text rest : List Char) :
    tokensFrom (.enclosed e depth text) (cs ++ e.closing :: rest) =
      (tokensFrom .between rest).map (e.token (text.reverse ++ cs) :: ·) := by
  induction cs generalizing depth text with
  | nil =>
    obtain rfl : depth = 0 := by simpa [Enclosure.balances] using h
    rw [List.nil_append, tokensFrom, if_pos rfl, List.append_nil]
  | cons c cs ih =>
    have htext : text.reverse ++ c :: cs = (c :: text).reverse ++ cs := by simp
    unfold Enclosure.balances at h
    rw [List.cons_append, htext]
    conv => lhs; unfold tokensFrom
    split at h <;> rename_i hclosing
    · rw [if_pos hclosing]
      cases depth with
      | zero => cases h
      | succ depth => exact ih h _
    · rw [if_neg hclosing]
      split at h <;> rename_i hopening
      · rw [if_pos hopening]
        exact ih h _
      · rw [if_neg hopening]
        exact ih h _

def Ends (rest : List Char) : Prop := rest = [] ∨ ∃ rest', rest = ' ' :: rest'

def Spells (cs : List Char) (t : Token) : Prop :=
  ∀ rest, Ends rest → tokensFrom .between (cs ++ rest) = (tokensFrom .between rest).map (t :: ·)

theorem tokensFrom_blank (rest : List Char) :
    tokensFrom .between (' ' :: rest) = tokensFrom .between rest := by
  rw [tokensFrom, if_pos (by decide)]

theorem tokensOf_spelled {parts : List (List Char × Token)} (h : ∀ p ∈ parts, Spells p.1 p.2) :
    tokensOf ([' '].intercalate (parts.map Prod.fst)) = .ok (parts.map Prod.snd) := by
  unfold tokensOf
  induction parts with
  | nil => rfl
  | cons p parts ih =>
    obtain ⟨hp, hparts⟩ := List.forall_mem_cons.mp h
    cases parts with
    | nil =>
      rw [List.map_singleton, List.intercalate_singleton, ← List.append_nil p.1, hp _ (Or.inl rfl)]
      rfl
    | cons p' parts =>
      have hrest := ih hparts
      rw [List.map_cons] at hrest
      rw [List.map_cons, List.map_cons, List.intercalate_cons_cons, List.append_assoc,
        List.singleton_append, hp _ (Or.inr ⟨_, rfl⟩), tokensFrom_blank, hrest]
      rfl

theorem Spells.of_plain {w : String} (h : Plain w) : Spells w.toList (.word w.toList) := by
  intro rest hrest
  obtain ⟨c, cs, hw⟩ := List.exists_cons_of_ne_nil h.toList_ne_nil
  have hblank : ∀ b ∈ c :: cs, Text.isBlank b = false := fun b hb =>
    isBlank_of_plain (h.2 b (by rw [hw]; exact hb))
  obtain ⟨h1, -, h2, -, h3, -⟩ := ne_of_plain (h.2 c (hw ▸ List.mem_cons_self))
  have hopening : Enclosure.ofOpening? c = none := by
    simp [Enclosure.ofOpening?, h1, h2, h3]
  rw [hw, List.cons_append, tokensFrom, if_neg (by simp [hblank c List.mem_cons_self]), hopening]
  dsimp only
  rw [tokensFrom_bare fun c hc => hblank c (List.mem_cons_of_mem _ hc)]
  obtain rfl | ⟨rest, rfl⟩ := hrest
  · simp [tokensFrom, Except.map]
  · rw [tokensFrom, if_pos (by decide), tokensFrom, if_pos (by decide)]
    simp

theorem Spells.of_enclosed {e : Enclosure} (he : e ≠ .quote) {cs : List Char}
    (h : e.balances 0 cs) : Spells (e.opening :: (cs ++ [e.closing])) (e.token cs) := by
  intro rest _
  have hopening : Text.isBlank e.opening = false ∧ Enclosure.ofOpening? e.opening = some e := by
    cases e <;> decide
  have htext : e.opening :: (cs ++ [e.closing]) ++ rest = e.opening :: (cs ++ e.closing :: rest) := by
    simp
  rw [htext, tokensFrom, if_neg (by simp [hopening.1]), hopening.2]
  exact tokensFrom_balanced h [] rest

def queryText (kind : ObjectKind) (list : List Char) : List Char :=
  kind.command.toList ++ ' ' :: '\x7b' :: (list ++ ['\x7d'])

namespace Piece

def token : Piece → Token
  | .word w => .word w.toList
  | .list ws => .word (" ".intercalate ws).toList
  | .query kind ws => .bracket (kind.command ++ " \x7b" ++ " ".intercalate ws ++ "\x7d").toList

theorem token_query (kind : ObjectKind) (ws : List String) :
    (Piece.query kind ws).token = .bracket (queryText kind (" ".intercalate ws).toList) := by
  simp [token, queryText]

theorem readPatterns_word {w : List Char} (hhead : w.head? ≠ some '-') (inner : List Char) :
    readPatterns inner [.word w] = .ok (Text.words (String.ofList w)) := by
  have hignored : ignoredOptions.contains (String.ofList w) = false := by
    rw [← Bool.not_eq_true]
    intro hcontains
    have hmem := List.contains_iff_mem.mp hcontains
    have hdash : ∀ o ∈ ignoredOptions, o.toList.head? = some '-' := by decide
    exact hhead (by simpa using hdash _ hmem)
  simp only [readPatterns, hignored, Bool.false_eq_true, if_false, hhead, Except.map,
    List.append_nil]

theorem readQuery_list {kind : ObjectKind} (hkind : kind ≠ .objects) {list : List Char}
    (hlist : Enclosure.brace.balances 0 list) (hhead : list.head? ≠ some '-') :
    readQuery (queryText kind list) = .ok ⟨kind, Text.words (String.ofList list)⟩ := by
  let parts : List (List Char × Token) := [(kind.command.toList, .word kind.command.toList),
    ('\x7b' :: (list ++ ['\x7d']), .word list)]
  have hspells : ∀ p ∈ parts, Spells p.1 p.2 := List.forall_mem_cons.mpr
    ⟨.of_plain (plain_command kind),
      List.forall_mem_singleton.mpr (Spells.of_enclosed (e := .brace) (by decide) hlist)⟩
  have htokens := tokensOf_spelled hspells
  have htext : [' '].intercalate (parts.map Prod.fst) = queryText kind list := by
    simp [parts, queryText]
  rw [htext] at htokens
  have hcommand : ObjectKind.ofCommand? kind.command = some kind := by
    cases kind <;> first | rfl | exact absurd rfl hkind
  -- no query of a piece is the one for all clocks
  have hsome : "all_clocks".toList.isPrefixOf (Text.trimStart (queryText kind list)) = false := by
    have hfirst : ∃ cs, kind.command.toList = 'g' :: cs := by
      cases kind <;> exact ⟨_, rfl⟩
    obtain ⟨cs, hfirst⟩ := hfirst
    rw [queryText, hfirst, List.cons_append, Text.trimStart, List.dropWhile_cons_of_neg (by decide)]
    rfl
  simp only [readQuery, tokenizeLine, htokens, parts, List.map_cons, List.map_nil,
    String.ofList_toList, hcommand, readPatterns_word hhead, hsome, bind, Except.bind, pure,
    Except.pure, Bool.false_eq_true, if_false]

theorem head?_intercalate {ws : List String} (hne : ws ≠ [])
    (hws : ∀ w ∈ ws, w ≠ "" ∧ w.toList.head? ≠ some '-') :
    (" ".intercalate ws).toList.head? ≠ some '-' := by
  obtain ⟨w, ws, rfl⟩ := List.exists_cons_of_ne_nil hne
  obtain ⟨hw, hhead⟩ := hws w List.mem_cons_self
  obtain ⟨c, cs, hw⟩ := List.exists_cons_of_ne_nil (l := w.toList) (by simpa using hw)
  cases ws with
  | nil => rwa [String.intercalate_singleton]
  | cons w' ws =>
    rw [hw] at hhead
    rw [String.intercalate_cons_cons, String.toList_append, String.toList_append, hw]
    exact hhead

theorem readArgument_token {p : Piece} (h : p.Plain) : readArgument p.token = .ok p.argument := by
  cases p with
  | word w => simp only [token, argument, readArgument, String.ofList_toList]
  | list ws => simp only [token, argument, readArgument, String.ofList_toList]
  | query kind ws =>
    obtain ⟨hkind, hne, hws⟩ := h
    have hplain : ∀ w ∈ ws, Script.Plain w := fun w hw => (hws w hw).1
    have hlist : Enclosure.brace.balances 0 (" ".intercalate ws).toList :=
      Enclosure.balances_of_inert fun c hc => inert_of_mem_intercalate hplain hc
    rw [token_query, readArgument, readQuery_list hkind hlist
      (head?_intercalate hne fun w hw => ⟨(hplain w hw).1, (hws w hw).2⟩), String.ofList_toList,
      words_intercalate hplain]
    rfl

end Piece

theorem mapM_of_forall {m : Type → Type} [Monad m] [LawfulMonad m] {α β : Type} {f : α → m β}
    {g : α → β} {l : List α} (h : ∀ a ∈ l, f a = pure (g a)) : l.mapM f = pure (l.map g) := by
  induction l with
  | nil => rfl
  | cons a l ih =>
    obtain ⟨ha, hl⟩ := List.forall_mem_cons.mp h
    rw [List.mapM_cons, ha, pure_bind, ih hl, pure_bind, List.map_cons]

end ClockTree.Script
