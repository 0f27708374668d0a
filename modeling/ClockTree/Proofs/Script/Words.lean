import ClockTree.Proofs.Number.Trimmed
import ClockTree.Script.Argument
import ClockTree.Script.Word

/-!
# Plain words

A word without characters that mean something to a script is written as it is. Plain words that are
separated by blanks are found again, in a list as well as in the patterns of a query.
-/
namespace ClockTree

theorem Text.runsFrom_append {p : Char → Bool} {cs : List Char} (h : ∀ c ∈ cs, p c = false)
    (run rest : List Char) : runsFrom p run (cs ++ rest) = runsFrom p (cs.reverse ++ run) rest := by
  induction cs generalizing run with
  | nil => rfl
  | cons c cs ih =>
    obtain ⟨hc, hcs⟩ := List.forall_mem_cons.mp h
    rw [List.cons_append, runsFrom, hc, if_neg Bool.false_ne_true, ih hcs, List.reverse_cons,
      List.append_assoc]
    rfl

theorem Text.runsFrom_separator {p : Char → Bool} {sep : Char} (hsep : p sep)
    (run cs rest : List Char) :
    runsFrom p run (cs ++ sep :: rest) = runsFrom p run cs ++ runsFrom p [] rest := by
  induction cs generalizing run with
  | nil => cases run <;> simp [runsFrom, hsep]
  | cons c cs ih =>
    rw [List.cons_append, runsFrom, runsFrom]
    split
    · split <;> simp [ih]
    · exact ih _

theorem Text.runs_intercalate {p : Char → Bool} (hblank : p ' ') (ws : List String) :
    runs p (" ".intercalate ws) = ws.flatMap (runs p) := by
  induction ws with
  | nil => rfl
  | cons w ws ih =>
    cases ws with
    | nil => rw [String.intercalate_singleton, List.flatMap_singleton]
    | cons w' ws =>
      rw [List.flatMap_cons, ← ih, String.intercalate_cons_cons, runs, String.toList_append,
        String.toList_append, show " ".toList = [' '] from rfl, List.append_assoc,
        List.singleton_append, runsFrom_separator hblank, List.map_append]
      rfl

theorem Text.runs_of_forall {p : Char → Bool} {w : String} (hne : w ≠ "")
    (h : ∀ c ∈ w.toList, p c = false) : runs p w = [w] := by
  rw [runs, ← List.append_nil w.toList, runsFrom_append h]
  simp [runsFrom, hne]

namespace Script

def Plain (w : String) : Prop := w ≠ "" ∧ ∀ c ∈ w.toList, isSpecial c = false

instance : DecidablePred Plain := fun w =>
  decidable_of_iff (w ≠ "" ∧ w.toList.all (isSpecial · == false)) <| by
    simp only [Plain, List.all_eq_true, beq_iff_eq]

theorem Plain.toList_ne_nil {w : String} (h : Plain w) : w.toList ≠ [] := by
  simpa using h.1

theorem isBlank_of_plain {c : Char} (h : isSpecial c = false) : Text.isBlank c = false := by
  simp only [isSpecial, Bool.or_eq_false_iff] at h
  exact h.1.1.1.1.1.1.1.1

theorem ne_of_plain {c : Char} (h : isSpecial c = false) : c ≠ '\x7b' ∧ c ≠ '\x7d' ∧ c ≠ '[' ∧
    c ≠ ']' ∧ c ≠ '"' ∧ c ≠ '\\' ∧ c ≠ ';' ∧ c ≠ ' ' ∧ c ≠ '\n' ∧ c ≠ '\r' := by
  refine ⟨?_, ?_, ?_, ?_, ?_, ?_, ?_, ?_, ?_, ?_⟩ <;> intro same <;> subst same <;> revert h <;>
    decide

theorem writeWord_of_plain {w : String} (h : Plain w) : writeWord w = w := by
  have hany : w.toList.any isSpecial = false := List.any_eq_false.mpr fun c hc => by simp [h.2 c hc]
  have hchars : writeChars w.toList = w.toList := by
    rw [writeChars, if_pos (by simp [hany, h.1])]
  rw [writeWord, hchars, String.ofList_toList]

theorem toList_writeWord_braced {w : String} (hplain : ¬ Plain w) (hbalanced : balanced w.toList)
    (hlast : w.toList.getLast? ≠ some '\\') :
    (writeWord w).toList = '\x7b' :: (w.toList ++ ['\x7d']) := by
  rw [writeWord, String.toList_ofList, writeChars, if_neg (by simpa [Plain] using hplain),
    if_pos (by simp [hbalanced, hlast])]
  rfl

theorem writeList_of_plain {ws : List String} (h : ∀ w ∈ ws, Plain w) :
    writeList ws = "\x7b" ++ " ".intercalate ws ++ "\x7d" := by
  have hmap : ws.map writeWord = ws :=
    (List.map_congr_left fun w hw => writeWord_of_plain (h w hw)).trans (List.map_id' ws)
  rw [writeList, hmap]

theorem runs_intercalate {p : Char → Bool} (hblank : p ' ') {ws : List String}
    (h : ∀ w ∈ ws, w ≠ "" ∧ ∀ c ∈ w.toList, p c = false) : Text.runs p (" ".intercalate ws) = ws := by
  have hruns : ws.map (Text.runs p) = ws.map fun w => [w] :=
    List.map_congr_left fun w hw => Text.runs_of_forall (h w hw).1 (h w hw).2
  rw [Text.runs_intercalate hblank, List.flatMap_def, hruns, ← List.flatMap_def,
    List.flatMap_singleton']

theorem words_intercalate {ws : List String} (h : ∀ w ∈ ws, Plain w) :
    Text.words (" ".intercalate ws) = ws :=
  runs_intercalate (by decide) fun w hw => ⟨(h w hw).1, fun c hc => isBlank_of_plain ((h w hw).2 c hc)⟩

theorem listItems_intercalate {ws : List String} (h : ∀ w ∈ ws, Plain w) :
    (Argument.word (" ".intercalate ws)).listItems = ws := by
  refine runs_intercalate (by decide) fun w hw => ⟨(h w hw).1, fun c hc => ?_⟩
  have hplain := (h w hw).2 c hc
  obtain ⟨hopen, hclose, -⟩ := ne_of_plain hplain
  simp [isBlank_of_plain hplain, hopen, hclose]

theorem isSpecial_of_isAlphanum {c : Char} (h : c.isAlphanum) : isSpecial c = false := by
  rw [Bool.eq_false_iff]
  intro hspecial
  simp only [isSpecial, Bool.or_eq_true, beq_iff_eq] at hspecial
  obtain (((((((hblank | rfl) | rfl) | rfl) | rfl) | rfl) | rfl) | rfl) | rfl := hspecial
  · change (decide (65 ≤ c.toNat ∧ c.toNat ≤ 90) || (decide (97 ≤ c.toNat) && decide (c.toNat ≤ 122))
      || (decide (48 ≤ c.toNat) && decide (c.toNat ≤ 57))) = true at h
    simp only [Bool.or_eq_true, Bool.and_eq_true, decide_eq_true_eq] at h
    simp only [Text.isBlank, Bool.or_eq_true, Bool.and_eq_true, decide_eq_true_eq, beq_iff_eq]
      at hblank
    omega
  all_goals exact absurd h (by decide)

theorem isSpecial_of_isNumberChar {c : Char} (h : Number.isNumberChar c) : isSpecial c = false := by
  simp only [Number.isNumberChar, Bool.or_eq_true, beq_iff_eq] at h
  obtain (h | rfl) | rfl := h
  · exact isSpecial_of_isAlphanum h
  · decide
  · decide

theorem Plain.of_read {places : Nat} {x y : Float}
    (h : Number.read? (Number.trimmed places x) = some y) : Plain (Number.trimmed places x) :=
  ⟨Number.trimmed_ne_empty h, fun _ hc =>
    isSpecial_of_isNumberChar (Number.isNumberChar_trimmed hc)⟩

theorem Plain.of_readsAs {places : Nat} {x y : Float} (h : Number.ReadsAs places x y) :
    Plain (Number.trimmed places x) :=
  .of_read h.1

end Script
end ClockTree
