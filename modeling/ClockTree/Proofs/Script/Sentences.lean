import ClockTree.Proofs.Script.Reading

/-!
# Sentences

A word with characters that mean something to a script is written in braces. The splitter goes
through such a word without an end of the command if no brace in it is escaped, and the word is one
token again if its braces are balanced. A sentence is a command of tokens of any kind, each written
so that it is found again whatever follows it.
-/
namespace ClockTree.Script

/-! ### Splitting -/

namespace Passes
variable {n n' n'' : Nesting} {cs ds : List Char}

theorem of_inert (h : ∀ c ∈ cs, Quiet c ∧ Inert c) : Passes n cs n := by
  have hquiet := of_quiet (n := n) fun c hc => (h c hc).1
  rwa [foldl_track_inert fun c hc => (h c hc).2] at hquiet

theorem of_plain {w : String} (h : Plain w) : Passes n w.toList n :=
  .of_inert fun c hc => ⟨quiet_of_plain (h.2 c hc), inert_of_plain (h.2 c hc)⟩

theorem intercalate {l : List (List Char)} (h : ∀ cs ∈ l, Passes n cs n) :
    Passes n ([' '].intercalate l) n := by
  induction l with
  | nil => exact nil n
  | cons cs l ih =>
    obtain ⟨hcs, hl⟩ := List.forall_mem_cons.mp h
    cases l with
    | nil => rwa [List.intercalate_singleton]
    | cons ds l =>
      rw [List.intercalate_cons_cons]
      have hblank : Passes n [' '] n := of_inert (List.forall_mem_singleton.mpr (by decide))
      exact (hcs.append hblank).append (ih hl)

end Passes

/-- Whether a text in braces is passed over as a whole: it has no line breaks, and its braces are
balanced, none of them behind a backslash. -/
def shelters : Nat → List Char → Bool
  | depth, [] => depth == 0
  | depth, '\\' :: c :: cs =>
    !(List.contains ['\x7b', '\x7d', '\n', '\r'] c) && shelters depth cs
  | depth, c :: cs =>
    if c = '\x7b' then shelters (depth + 1) cs
    else if c = '\x7d' then match depth with
      | 0 => false
      | depth + 1 => shelters depth cs
    else !(List.contains ['\\', '\n', '\r'] c) && shelters depth cs

theorem splitFrom_escaped {pos : Nat} {s : Scan} {c : Char} {rest : List Char} (hnewline : c ≠ '\n')
    (hreturn : c ≠ '\r') : splitFrom pos s ('\\' :: c :: rest) =
      splitFrom (pos + 1 + c.utf8Size) (s.pushEscaped pos c) rest := by
  rw [splitFrom] <;> simp_all

theorem Passes.cons_escaped {n n' : Nesting} {c : Char} {cs : List Char} (hnewline : c ≠ '\n')
    (hreturn : c ≠ '\r') (h : Passes n cs n') : Passes n ('\\' :: c :: cs) n' := by
  intro pos s rest hstart hn
  have hstart' : (s.pushEscaped pos c).start.isSome := by
    cases hs : s.start <;> simp [Scan.pushEscaped, hs]
  obtain ⟨pos', s', hsplit, hsome, htext, hn'⟩ := h _ (s.pushEscaped pos c) rest hstart' hn
  refine ⟨pos', s', ?_, hsome, ?_, hn'⟩
  · rw [List.cons_append, List.cons_append, splitFrom_escaped hnewline hreturn, hsplit]
  · rw [htext]
    simp [Scan.pushEscaped]

theorem Passes.cons_semicolon {n n' : Nesting} {cs : List Char} (hn : 0 < n.braces)
    (h : Passes n cs n') : Passes n (';' :: cs) n' := by
  intro pos s rest hstart hs
  have hnested : s.nested := by
    subst hs
    simp [Scan.nested, show 0 < s.braces from hn]
  have hstep : splitFrom pos s (';' :: (cs ++ rest)) =
      splitFrom (pos + ';'.utf8Size) ((s.track ';').push pos ';') (cs ++ rest) :=
    splitFrom_plain (by simp) (by decide) (by decide) (fun _ => hnested) (Or.inl hstart)
  have htrack : s.track ';' = s := by simp [Scan.track]
  have hstart' : (s.push pos ';').start.isSome := by
    cases hsome : s.start <;> simp [Scan.push, hsome]
  obtain ⟨pos', s', hsplit, hsome, htext, hn'⟩ := h _ (s.push pos ';') rest hstart' hs
  refine ⟨pos', s', ?_, hsome, ?_, hn'⟩
  · rw [List.cons_append, hstep, htrack, hsplit]
  · rw [htext]
    simp [Scan.push]

theorem track_within {b k : Nat} {c : Char} (hopen : c ≠ '\x7b') (hclose : c ≠ '\x7d') :
    Nesting.track ⟨b + 1, k, false⟩ c = ⟨b + 1, k, false⟩ := by
  simp [Nesting.track, Scan.track, hopen, hclose]

theorem Passes.of_shelters {b k depth : Nat} {cs : List Char} (h : shelters depth cs) :
    Passes ⟨b + 1 + depth, k, false⟩ cs ⟨b + 1, k, false⟩ := by
  fun_induction shelters depth cs with
  | case1 depth =>
    obtain rfl : depth = 0 := by simpa using h
    exact .nil _
  | case2 depth c cs ih =>
    simp only [Bool.and_eq_true, Bool.not_eq_true', List.contains_eq_mem, List.mem_cons,
      List.not_mem_nil, or_false, decide_eq_false_iff_not, not_or] at h
    exact .cons_escaped h.1.2.2.1 h.1.2.2.2 (ih h.2)
  | case3 depth cs _ ih => exact .cons (by decide) (ih h)
  | case4 => cases h
  | case5 cs depth _ _ ih =>
    have htrack : Nesting.track ⟨b + 1 + (depth + 1), k, false⟩ '\x7d' = ⟨b + 1 + depth, k, false⟩ :=
      rfl
    exact .cons (by decide) (htrack ▸ ih h)
  | case6 depth c cs _ hopen hclose ih =>
    simp only [Bool.and_eq_true, Bool.not_eq_true', List.contains_eq_mem, List.mem_cons,
      List.not_mem_nil, or_false, decide_eq_false_iff_not, not_or] at h
    obtain ⟨⟨hescape, hnewline, hreturn⟩, hrest⟩ := h
    have hpasses : Passes ⟨b + 1 + depth, k, false⟩ cs ⟨b + 1, k, false⟩ := ih hrest
    by_cases hsemicolon : c = ';'
    · subst hsemicolon
      exact .cons_semicolon (Nat.add_pos_left b.succ_pos depth) hpasses
    · rw [Nat.add_right_comm] at hpasses ⊢
      refine .cons ⟨hescape, hnewline, hreturn, hsemicolon⟩ ?_
      rwa [track_within hopen hclose]

/-! ### Words in braces -/

theorem balancedFrom_of_shelters {depth : Nat} {cs : List Char} (h : shelters depth cs) :
    balancedFrom depth cs := by
  fun_induction shelters depth cs with
  | case1 depth => exact h
  | case2 depth c cs ih =>
    simp only [Bool.and_eq_true, Bool.not_eq_true', List.contains_eq_mem, List.mem_cons,
      List.not_mem_nil, or_false, decide_eq_false_iff_not, not_or] at h
    obtain ⟨⟨hopen, hclose, -⟩, hrest⟩ := h
    simp only [balancedFrom, hopen, hclose, if_false, Char.reduceEq]
    exact ih hrest
  | case3 depth cs _ ih => exact ih h
  | case4 => cases h
  | case5 cs depth _ _ ih => exact ih h
  | case6 depth c cs _ hopen hclose ih =>
    rw [Bool.and_eq_true] at h
    simp only [balancedFrom, hopen, hclose, if_false]
    exact ih h.2

theorem balances_brace (depth : Nat) (cs : List Char) :
    Enclosure.brace.balances depth cs = balancedFrom depth cs := by
  fun_induction balancedFrom depth cs with
  | case1 depth => rfl
  | case2 depth cs ih => exact ih
  | case3 cs h => rfl
  | case4 cs depth h ih => exact ih
  | case5 depth c cs hopen hclose ih =>
    simp only [Enclosure.balances, Enclosure.closing, Enclosure.opening, hopen, hclose, if_false]
    exact ih

theorem Enclosure.balances_append {e : Enclosure} {k : Nat} {cs : List Char} (h : e.balances k cs)
    (m : Nat) (ds : List Char) : e.balances (m + k) (cs ++ ds) = e.balances m ds := by
  fun_induction Enclosure.balances e k cs with
  | case1 k =>
    obtain rfl : k = 0 := by simpa using h
    rfl
  | case2 cs => cases h
  | case3 cs k ih =>
    rw [List.cons_append, ← ih h]
    simp [balances]
  | case4 k cs hclosing ih =>
    rw [List.cons_append, ← ih h]
    simp [balances, hclosing, ← Nat.add_assoc]
  | case5 k c cs hclosing hopening ih =>
    rw [List.cons_append, ← ih h]
    simp [balances, hclosing, hopening]

theorem Enclosure.balances_intercalate {e : Enclosure} (he : e ≠ .quote) {l : List (List Char)}
    (h : ∀ cs ∈ l, e.balances 0 cs) : e.balances 0 ([' '].intercalate l) := by
  have hblank : ∀ ds, e.balances 0 (' ' :: ds) = e.balances 0 ds := fun ds => by
    cases e <;> simp [balances, opening, closing]
  induction l with
  | nil => rfl
  | cons cs l ih =>
    obtain ⟨hcs, hl⟩ := List.forall_mem_cons.mp h
    cases l with
    | nil => rwa [List.intercalate_singleton]
    | cons ds l =>
      rw [List.intercalate_cons_cons, List.append_assoc, List.singleton_append]
      exact (balances_append hcs 0 _).trans ((hblank _).trans (ih hl))

theorem Spells.of_balanced {w : String} (hbalanced : balanced w.toList)
    (hlast : w.toList.getLast? ≠ some '\\') : Spells (writeWord w).toList (.word w.toList) := by
  by_cases hplain : Plain w
  · rw [writeWord_of_plain hplain]
    exact .of_plain hplain
  · rw [toList_writeWord_braced hplain hbalanced hlast]
    rw [balanced, ← balances_brace] at hbalanced
    exact .of_enclosed (e := .brace) (by decide) hbalanced

/-- A name that can be written in braces: it is passed over as a whole, and no backslash at its end
takes the brace behind it along. -/
structure Sheltered (w : String) : Prop where
  nonempty : w ≠ ""
  shelters : shelters 0 w.toList
  last : w.toList.getLast? ≠ some '\\'

instance : DecidablePred Sheltered := fun _ =>
  decidable_of_iff (_ ∧ _ ∧ _) ⟨fun h => ⟨h.1, h.2.1, h.2.2⟩,
    fun h => ⟨h.nonempty, h.shelters, h.last⟩⟩

theorem shelters_of_plain {cs : List Char} (h : ∀ c ∈ cs, isSpecial c = false) : shelters 0 cs := by
  induction cs with
  | nil => rfl
  | cons c cs ih =>
    obtain ⟨hc, hcs⟩ := List.forall_mem_cons.mp h
    obtain ⟨hopen, hclose, -, -, -, hescape, -, -, hnewline, hreturn⟩ := ne_of_plain hc
    rw [shelters]
    · simp [hopen, hclose, hescape, hnewline, hreturn, ih hcs]
    · exact fun _ _ hsame => absurd hsame hescape

namespace Sheltered
variable {w : String}

theorem of_plain (h : Plain w) : Sheltered w := by
  refine ⟨h.1, shelters_of_plain h.2, fun hlast => ?_⟩
  have hplain := h.2 _ (List.mem_of_getLast? hlast)
  exact absurd hplain (by decide)

theorem plain_or_braced (h : Sheltered w) : Plain w ∧ (writeWord w).toList = w.toList ∨
    ¬ Plain w ∧ (writeWord w).toList = '\x7b' :: (w.toList ++ ['\x7d']) := by
  by_cases hplain : Plain w
  · exact Or.inl ⟨hplain, by rw [writeWord_of_plain hplain]⟩
  · exact Or.inr ⟨hplain,
      toList_writeWord_braced hplain (balancedFrom_of_shelters h.shelters) h.last⟩

theorem passes (h : Sheltered w) (b k : Nat) :
    Passes ⟨b, k, false⟩ (writeWord w).toList ⟨b, k, false⟩ := by
  obtain ⟨hplain, hw⟩ | ⟨-, hw⟩ := h.plain_or_braced <;> rw [hw]
  · exact .of_plain hplain
  · have hclose : Passes ⟨b + 1, k, false⟩ ['\x7d'] ⟨b, k, false⟩ := .cons (by decide) (.nil _)
    exact .cons (by decide) ((Passes.of_shelters h.shelters).append hclose)

theorem balances_brace (h : Sheltered w) : Enclosure.brace.balances 0 (writeWord w).toList := by
  obtain ⟨hplain, hw⟩ | ⟨-, hw⟩ := h.plain_or_braced <;> rw [hw]
  · exact Enclosure.balances_of_inert fun c hc => inert_of_plain (hplain.2 c hc)
  · have hbalanced := balancedFrom_of_shelters h.shelters
    rw [← Script.balances_brace] at hbalanced
    exact Enclosure.balances_append (k := 0) hbalanced 1 ['\x7d']

theorem balances_bracket (h : Sheltered w) (hw : Enclosure.bracket.balances 0 w.toList) :
    Enclosure.bracket.balances 0 (writeWord w).toList := by
  obtain ⟨-, hwritten⟩ | ⟨-, hwritten⟩ := h.plain_or_braced <;> rw [hwritten]
  · exact hw
  · exact Enclosure.balances_append (k := 0) hw 0 ['\x7d']

theorem spells (h : Sheltered w) : Spells (writeWord w).toList (.word w.toList) :=
  .of_balanced (balancedFrom_of_shelters h.shelters) h.last

theorem getLast? (h : Sheltered w) :
    ∃ c, (writeWord w).toList.getLast? = some c ∧ Text.isBlank c = false := by
  obtain ⟨hplain, hw⟩ | ⟨-, hw⟩ := h.plain_or_braced <;> rw [hw]
  · obtain ⟨c, hc⟩ := Option.isSome_iff_exists.mp (List.getLast?_isSome.mpr hplain.toList_ne_nil)
    exact ⟨c, hc, isBlank_of_plain (hplain.2 c (List.mem_of_getLast? hc))⟩
  · exact ⟨'\x7d', by rw [← List.cons_append, List.getLast?_concat], by decide⟩

end Sheltered

/-! ### Texts that stand for tokens -/

structure Denotes (cs : List Char) (t : Token) : Prop where
  passes : Passes .outside cs .outside
  last : ∃ c, cs.getLast? = some c ∧ Text.isBlank c = false
  spells : Spells cs t

theorem Sheltered.denotes {w : String} (h : Sheltered w) :
    Denotes (writeWord w).toList (.word w.toList) :=
  ⟨h.passes 0 0, h.getLast?, h.spells⟩

theorem Denotes.of_plain {w : String} (h : Plain w) : Denotes w.toList (.word w.toList) := by
  have hdenotes := (Sheltered.of_plain h).denotes
  rwa [writeWord_of_plain h] at hdenotes

theorem Denotes.of_enclosed {e : Enclosure} (he : e ≠ .quote) {cs : List Char}
    (hpasses : Passes (Nesting.outside.track e.opening) cs (Nesting.outside.track e.opening))
    (hbalances : e.balances 0 cs) : Denotes (e.opening :: (cs ++ [e.closing])) (e.token cs) where
  passes := by
    have hquiet : Quiet e.opening ∧ Quiet e.closing := by cases e <;> decide
    have htrack : (Nesting.outside.track e.opening).track e.closing = .outside := by
      cases e <;> rfl
    refine .cons hquiet.1 (hpasses.append (.cons hquiet.2 ?_))
    rw [htrack]
    exact .nil _
  last := ⟨e.closing, by rw [← List.cons_append, List.getLast?_concat], by cases e <;> decide⟩
  spells := Spells.of_enclosed he hbalances

/-! ### Queries and pieces -/

theorem passes_queryText (kind : ObjectKind) (k : Nat) {list : List Char}
    (h : Passes ⟨1, k, false⟩ list ⟨1, k, false⟩) :
    Passes ⟨0, k, false⟩ (queryText kind list) ⟨0, k, false⟩ := by
  have hclose : Passes ⟨1, k, false⟩ ['\x7d'] ⟨0, k, false⟩ := .cons (by decide) (.nil _)
  exact (Passes.of_plain (plain_command kind)).append
    (.cons (by decide) (.cons (by decide) (h.append hclose)))

theorem balances_queryText (kind : ObjectKind) {list : List Char}
    (h : Enclosure.bracket.balances 0 list) : Enclosure.bracket.balances 0 (queryText kind list) := by
  have hword : Enclosure.bracket.balances 0 kind.command.toList :=
    Enclosure.balances_of_inert fun c hc => inert_of_plain ((plain_command kind).2 c hc)
  exact (Enclosure.balances_append hword 0 _).trans (Enclosure.balances_append h 0 ['\x7d'])

theorem denotes_query (kind : ObjectKind) {list : List Char}
    (hpasses : Passes ⟨1, 1, false⟩ list ⟨1, 1, false⟩)
    (hbalances : Enclosure.bracket.balances 0 list) :
    Denotes ('[' :: (queryText kind list ++ [']'])) (.bracket (queryText kind list)) :=
  .of_enclosed (e := .bracket) (by decide) (passes_queryText kind 1 hpasses)
    (balances_queryText kind hbalances)

theorem Piece.denotes {p : Piece} (h : p.Plain) : Denotes p.text.toList p.token := by
  have hpasses : ∀ {ws : List String}, (∀ w ∈ ws, Script.Plain w) → ∀ n,
      Passes n (" ".intercalate ws).toList n := fun hws n =>
    .of_inert fun c hc => ⟨quiet_of_mem_intercalate hws hc, inert_of_mem_intercalate hws hc⟩
  cases p with
  | word w => exact .of_plain h
  | list ws =>
    rw [toList_list]
    exact .of_enclosed (e := .brace) (by decide) (hpasses h _)
      (Enclosure.balances_of_inert fun c hc => inert_of_mem_intercalate h hc)
  | query kind ws =>
    have hplain : ∀ w ∈ ws, Script.Plain w := fun w hw => (h.2.2 w hw).1
    have htext : (Piece.query kind ws).text.toList =
        '[' :: (queryText kind (" ".intercalate ws).toList ++ [']']) := by
      simp [text, queryText]
    rw [htext, token_query]
    exact denotes_query kind (hpasses hplain _)
      (Enclosure.balances_of_inert fun c hc => inert_of_mem_intercalate hplain hc)

/-! ### Sentences -/

theorem getLast?_intercalate {l : List (List Char)} (hne : l ≠ [])
    (h : ∀ cs ∈ l, ∃ c, cs.getLast? = some c ∧ Text.isBlank c = false) :
    ∃ c, ([' '].intercalate l).getLast? = some c ∧ Text.isBlank c = false := by
  induction l with
  | nil => exact absurd rfl hne
  | cons cs l ih =>
    obtain ⟨hcs, hl⟩ := List.forall_mem_cons.mp h
    cases l with
    | nil => rwa [List.intercalate_singleton]
    | cons ds l =>
      obtain ⟨c, hc, hblank⟩ := ih (List.cons_ne_nil ds l) hl
      refine ⟨c, ?_, hblank⟩
      rw [List.intercalate_cons_cons, List.getLast?_append, hc]
      rfl

def plainPart (p : Piece) : List Char × Token := (p.text.toList, p.token)

def sentence (command : Command) (parts : List (List Char × Token)) : List Char :=
  [' '].intercalate (command.name.toList :: parts.map Prod.fst)

section
variable {command : Command} {parts : List (List Char × Token)}

theorem single_sentence (h : ∀ p ∈ parts, Denotes p.1 p.2) : Single (sentence command parts) := by
  have hname := plain_name command
  have hfirst : ∃ c cs, command.name.toList = c :: cs ∧ c ≠ '#' := by
    cases command <;> exact ⟨_, _, rfl, by decide⟩
  obtain ⟨c, cs, hcs, hcomment⟩ := hfirst
  have hplain : ∀ b ∈ c :: cs, isSpecial b = false := fun b hb => hname.2 b (hcs ▸ hb)
  obtain ⟨hc, hrest⟩ := List.forall_mem_cons.mp hplain
  refine ⟨⟨c, [' '].intercalate (cs :: parts.map Prod.fst), ?_, quiet_of_plain hc,
    isBlank_of_plain hc, hcomment, ?_⟩, fun b hb => ?_⟩
  · rw [sentence, hcs]
    cases parts <;> rfl
  · have htrack := foldl_track_inert (List.forall_mem_singleton.mpr (inert_of_plain hc)) .outside
    rw [show Nesting.outside.track c = .outside from htrack]
    refine .intercalate (List.forall_mem_cons.mpr ⟨.of_inert fun b hb => ?_, fun ds hds => ?_⟩)
    · exact ⟨quiet_of_plain (hrest b hb), inert_of_plain (hrest b hb)⟩
    · obtain ⟨p, hp, rfl⟩ := List.mem_map.mp hds
      exact (h p hp).passes
  · obtain ⟨b', hb', hblank⟩ := getLast?_intercalate (List.cons_ne_nil command.name.toList _)
      (List.forall_mem_cons.mpr ⟨(Piece.denotes (p := .word command.name) hname).last, fun ds hds => by
        obtain ⟨p, hp, rfl⟩ := List.mem_map.mp hds
        exact (h p hp).last⟩)
    rw [sentence, hb'] at hb
    exact Option.some.inj hb ▸ hblank

theorem tokenizeLine_sentence (h : ∀ p ∈ parts, Spells p.1 p.2) :
    tokenizeLine (sentence command parts) =
      .ok (.word command.name.toList :: parts.map Prod.snd) := by
  have hspells : ∀ p ∈ (command.name.toList, Token.word command.name.toList) :: parts,
      Spells p.1 p.2 := List.forall_mem_cons.mpr ⟨.of_plain (plain_name command), h⟩
  have htokens := tokensOf_spelled hspells
  rw [List.map_cons] at htokens
  rw [tokenizeLine, sentence, htokens]
  rfl

theorem readCommand_sentence (h : ∀ p ∈ parts, Spells p.1 p.2) :
    readCommand (sentence command parts) =
      (parts.mapM fun p => readArgument p.2).map (command.name, ·) := by
  rw [readCommand, tokenizeLine_sentence h]
  simp only [bind, Except.bind, String.ofList_toList, List.mapM_map, Function.comp_def]
  cases parts.mapM fun p => readArgument p.2 <;> rfl

end

/-! ### Lines -/

namespace Line
variable {l : Line}

theorem toList_sentence (l : Line) :
    l.text.toList = sentence l.command (l.pieces.map plainPart) := by
  rw [toList_text, sentence, List.map_map]
  rfl

theorem denotes (h : l.Plain) : ∀ p ∈ l.pieces.map plainPart, Denotes p.1 p.2 :=
  List.forall_mem_map.mpr fun p hp => Piece.denotes (h p hp)

theorem single (h : l.Plain) : Single l.text.toList := by
  rw [toList_sentence]
  exact single_sentence (denotes h)

theorem readCommand (h : l.Plain) :
    Script.readCommand l.text.toList = .ok (l.command.name, l.pieces.map Piece.argument) := by
  have harguments : (l.pieces.map plainPart).mapM (fun p => readArgument p.2) =
      .ok (l.pieces.map Piece.argument) := by
    rw [List.mapM_map]
    exact mapM_of_forall fun p hp => Piece.readArgument_token (h p hp)
  rw [toList_sentence, readCommand_sentence fun p hp => (denotes h p hp).spells, harguments]
  rfl

end Line

end ClockTree.Script
