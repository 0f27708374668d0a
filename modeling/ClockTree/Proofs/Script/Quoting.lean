import ClockTree.Proofs.Script.Reading
import ClockTree.Proofs.Script.Sentences

/-!
# Which words survive writing and reading

A word that is written as it is or in braces is read as itself. The reader knows braces and quotes,
but no escapes, so of a word that has to be escaped it reads the pieces between the blanks of what
is written, backslashes included, and these are never the word.
-/
namespace ClockTree

theorem Text.not_of_mem_runsFrom {p : Char → Bool} {run cs l : List Char}
    (hrun : ∀ c ∈ run, p c = false) (hl : l ∈ runsFrom p run cs) : ∀ c ∈ l, p c = false := by
  have hreverse : ∀ c ∈ run.reverse, p c = false := fun c hc => hrun c (List.mem_reverse.mp hc)
  fun_induction runsFrom p run cs with
  | case1 => cases hl
  | case2 => rwa [List.mem_singleton.mp hl]
  | case3 run c cs _ _ ih => exact ih (List.forall_mem_nil _) hl (List.forall_mem_nil _)
  | case4 run c cs _ _ ih =>
    obtain rfl | hl := List.mem_cons.mp hl
    · exact hreverse
    · exact ih (List.forall_mem_nil _) hl (List.forall_mem_nil _)
  | case5 run c cs hc ih =>
    have hnext : ∀ b ∈ c :: run, p b = false :=
      List.forall_mem_cons.mpr ⟨Bool.eq_false_iff.mpr hc, hrun⟩
    exact ih hnext hl fun b hb => hnext b (List.mem_reverse.mp hb)

namespace Script

/-! ### Texts that can be put in braces -/

/-- Every brace has its partner, the opening one first, and there is no backslash at the end, where
it would take the closing brace along. -/
structure Enclosable (cs : List Char) : Prop where
  opened : ∀ before, before <+: cs → before.count '\x7d' ≤ before.count '\x7b'
  closed : cs.count '\x7d' = cs.count '\x7b'
  last : cs.getLast? ≠ some '\\'

theorem forall_prefix_cons {α : Type} {P : List α → Prop} {a : α} {l : List α} :
    (∀ p, p <+: a :: l → P p) ↔ P [] ∧ ∀ p, p <+: l → P (a :: p) := by
  constructor
  · exact fun h => ⟨h [] List.nil_prefix, fun p hp => h _ ((List.prefix_cons_inj a).mpr hp)⟩
  · rintro ⟨hnil, hcons⟩ p hp
    obtain rfl | ⟨q, rfl, hq⟩ := List.prefix_cons_iff.mp hp
    · exact hnil
    · exact hcons q hq

theorem balancedFrom_iff (depth : Nat) (cs : List Char) : balancedFrom depth cs ↔
    (∀ before, before <+: cs → before.count '\x7d' ≤ depth + before.count '\x7b') ∧
      cs.count '\x7d' = depth + cs.count '\x7b' := by
  fun_induction balancedFrom depth cs with
  | case1 depth => simp [List.prefix_nil]; omega
  | case2 depth cs ih =>
    rw [ih, forall_prefix_cons]
    simp [Nat.add_comm, Nat.add_left_comm]
  | case3 cs _ =>
    refine iff_of_false Bool.false_ne_true fun h => ?_
    exact absurd (h.1 ['\x7d'] (by simp)) (by decide)
  | case4 cs depth hclose ih =>
    rw [ih, forall_prefix_cons]
    simp [hclose, Nat.add_right_comm]
  | case5 depth c cs hopen hclose ih =>
    rw [ih, forall_prefix_cons]
    simp [List.count_cons_of_ne, hopen, hclose]

theorem enclosable_iff {cs : List Char} :
    Enclosable cs ↔ balanced cs ∧ cs.getLast? ≠ some '\\' := by
  rw [balanced, balancedFrom_iff]
  simp only [Nat.zero_add]
  exact ⟨fun h => ⟨⟨h.opened, h.closed⟩, h.last⟩, fun h => ⟨h.1.1, h.1.2, h.2⟩⟩

theorem enclosable_of_plain {cs : List Char} (h : ∀ c ∈ cs, isSpecial c = false) :
    Enclosable cs :=
  enclosable_iff.mpr ⟨balancedFrom_of_shelters (shelters_of_plain h), fun hlast =>
    absurd (h '\\' (List.mem_of_getLast? hlast)) (by decide)⟩

theorem tokensOf_spells {cs : List Char} {t : Token} (h : Spells cs t) : tokensOf cs = .ok [t] := by
  have hspells := h [] (Or.inl rfl)
  rwa [List.append_nil] at hspells

theorem tokensOf_enclosable {w : String} (h : Enclosable w.toList) :
    tokensOf (writeWord w).toList = .ok [.word w.toList] := by
  obtain ⟨hbalanced, hlast⟩ := enclosable_iff.mp h
  exact tokensOf_spells (.of_balanced hbalanced hlast)

/-! ### Escaped texts -/

theorem length_escape (cs : List Char) : (escape cs).length = cs.length + cs.countP isSpecial := by
  induction cs with
  | nil => rfl
  | cons c cs ih =>
    have hlength : (escape (c :: cs)).length =
        (if isSpecial c then ['\\', c] else [c]).length + (escape cs).length := by
      simp [escape]
    rw [hlength, ih, List.countP_cons, List.length_cons]
    split <;> simp <;> omega

def Place.ofRun : List Char → Place
  | [] => .between
  | run => .bare run

theorem tokensFrom_ofRun_extend {c : Char} (hblank : Text.isBlank c = false) {run : List Char}
    (hopening : run = [] → Enclosure.ofOpening? c = none) (cs : List Char) :
    tokensFrom (.ofRun run) (c :: cs) = tokensFrom (.ofRun (c :: run)) cs := by
  cases run with
  | nil =>
    rw [Place.ofRun, tokensFrom, if_neg (by simp [hblank]), hopening rfl]
    rfl
  | cons b run =>
    rw [Place.ofRun, tokensFrom, if_neg (by simp [hblank])]
    · rfl
    · simp

theorem tokensFrom_ofRun_blank {c : Char} (hblank : Text.isBlank c) {run : List Char}
    (hrun : run ≠ []) (cs : List Char) : tokensFrom (.ofRun run) (c :: cs) =
      (tokensFrom .between cs).map (.word run.reverse :: ·) := by
  obtain ⟨b, run, rfl⟩ := List.exists_cons_of_ne_nil hrun
  rw [Place.ofRun, tokensFrom, if_pos hblank]
  simp

/-- Every character of an escaped text that could open something, or be a blank in front of a word,
stands behind a backslash, so the reader is in a bare word when it comes to it. -/
theorem tokensFrom_escape (run cs : List Char) : tokensFrom (.ofRun run) (escape cs) =
    .ok ((Text.runsFrom Text.isBlank run (escape cs)).map .word) := by
  induction cs generalizing run with
  | nil => cases run <;> simp [escape, Place.ofRun, tokensFrom, Text.runsFrom]
  | cons c cs ih =>
    by_cases hspecial : isSpecial c
    · have hescape : escape (c :: cs) = '\\' :: c :: escape cs := by simp [escape, hspecial]
      rw [hescape, tokensFrom_ofRun_extend (by decide) fun _ => by decide, Text.runsFrom,
        if_neg (by decide), Text.runsFrom]
      by_cases hblank : Text.isBlank c
      · rw [tokensFrom_ofRun_blank hblank (List.cons_ne_nil _ _),
          show Place.between = .ofRun [] from rfl, ih, if_pos hblank, if_neg (by simp)]
        rfl
      · rw [tokensFrom_ofRun_extend (Bool.eq_false_iff.mpr hblank) (fun h => by cases h),
          ih, if_neg hblank]
    · have hplain : isSpecial c = false := Bool.eq_false_iff.mpr hspecial
      have hescape : escape (c :: cs) = c :: escape cs := by simp [escape, hplain]
      obtain ⟨hbrace, -, hbracket, -, hquote, -⟩ := ne_of_plain hplain
      have hblank := isBlank_of_plain hplain
      rw [hescape, tokensFrom_ofRun_extend hblank fun _ => by
          simp [Enclosure.ofOpening?, hbrace, hbracket, hquote], ih, Text.runsFrom,
        if_neg (by simp [hblank])]

/-- The pieces of an escaped text are not the text alone: they have no blanks, and a text without
blanks stays in one piece, which has the backslashes. -/
theorem runsFrom_escape_ne {cs : List Char} (h : ∃ c ∈ cs, isSpecial c) :
    Text.runsFrom Text.isBlank [] (escape cs) ≠ [cs] := by
  intro hruns
  have hcs : ∀ c ∈ cs, Text.isBlank c = false :=
    Text.not_of_mem_runsFrom (List.forall_mem_nil _) (hruns ▸ List.mem_singleton_self cs)
  have hescaped : ∀ c ∈ escape cs, Text.isBlank c = false := fun c hc => by
    obtain ⟨b, hb, hc⟩ := List.mem_flatMap.mp hc
    split at hc
    · obtain rfl | hc := List.mem_cons.mp hc
      · decide
      · rw [List.mem_singleton.mp hc]
        exact hcs b hb
    · rw [List.mem_singleton.mp hc]
      exact hcs b hb
  -- Without blanks the escaped text is one piece, and it is longer than the text.
  have hlength := length_escape cs
  have hpositive : 0 < cs.countP isSpecial := List.countP_pos_iff.mpr h
  have hne : escape cs ≠ [] := List.ne_nil_of_length_pos (by omega)
  rw [← List.append_nil (escape cs), Text.runsFrom_append hescaped, Text.runsFrom] at hruns
  rw [if_neg (by simpa using hne), List.append_nil, List.reverse_reverse, List.cons.injEq] at hruns
  rw [hruns.1] at hlength
  omega

/-- What is written for a word can always be read. It is read as the word alone exactly when the
word can be put in braces, and as the pieces of the escaped text otherwise. -/
theorem tokensOf_writeWord (w : String) : ∃ tokens, tokensOf (writeWord w).toList = .ok tokens ∧
    (tokens = [.word w.toList] ↔ Enclosable w.toList) ∧
    (¬ Enclosable w.toList → tokens =
      (Text.words (String.ofList (escape w.toList))).map fun piece => .word piece.toList) := by
  by_cases h : Enclosable w.toList
  · exact ⟨_, tokensOf_enclosable h, iff_of_true rfl h, fun hnot => absurd h hnot⟩
  · have hspecial : ∃ c ∈ w.toList, isSpecial c := by
      refine Classical.byContradiction fun hnone => h (enclosable_of_plain fun c hc => ?_)
      exact Bool.eq_false_iff.mpr fun hspecial => hnone ⟨c, hc, hspecial⟩
    have hwritten : (writeWord w).toList = escape w.toList := by
      rw [enclosable_iff] at h
      rw [writeWord, String.toList_ofList, writeChars, if_neg (by simpa using fun _ => hspecial),
        if_neg (by simpa using h)]
    rw [hwritten]
    refine ⟨_, tokensFrom_escape [] w.toList, iff_of_false (fun hword => ?_) h, fun _ => ?_⟩
    · rw [show [Token.word w.toList] = [w.toList].map .word from rfl] at hword
      exact runsFrom_escape_ne hspecial ((List.map_inj_right fun _ _ => Token.word.inj).mp hword)
    · simp [Text.words, Text.runs, Function.comp_def]

theorem tokensOf_writeWord_brace :
    tokensOf (writeWord "x\x7d").toList ≠ .ok [.word "x\x7d".toList] := by
  have htokens : tokensOf (writeWord "x\x7d").toList = .ok [.word ['x', '\\', '\x7d']] := rfl
  rw [htokens]
  simp

end Script
end ClockTree
