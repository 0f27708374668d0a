import ClockTree.Netlist.Document
import ClockTree.Proofs.Json.Canonical
import ClockTree.Proofs.Number.Integers
import ClockTree.Proofs.Text.Trim

/-!
# The divisors of cells

A parameter of a document denotes a number: it is one, or a truth value, or a text of binary digits
or of a decimal integer. Where a divisor is wanted, it is read as the positive integer of 64 bits
that it denotes. A text that denotes a larger one is refused, but a larger number is read as the
greatest integer of 64 bits.
-/
namespace ClockTree
open Number

namespace Params
variable {ps : Params} {name : String}

theorem positive_eq_ok_iff {n : Int} : ps.positive name = .ok (some n) ↔
    ∃ v, ps.get? name = some v ∧ v.toInt? = some n ∧ 0 < n := by
  unfold Params.positive
  cases ps.get? name with
  | none => simp
  | some v =>
    dsimp only
    cases hv : v.toInt? with
    | none => simp [hv]
    | some k =>
      simp only [Option.some_inj, exists_eq_left', hv]
      by_cases hpos : 0 < k
      · rw [if_pos hpos, Except.ok.injEq, Option.some_inj]
        exact ⟨fun h => ⟨h, h ▸ hpos⟩, fun h => h.1⟩
      · rw [if_neg hpos]
        refine iff_of_false (by simp) ?_
        rintro ⟨rfl, h⟩
        exact hpos h

theorem positive_ne_none {v : Parameter} (h : ps.get? name = some v) :
    ps.positive name ≠ .ok none := by
  unfold Params.positive
  rw [h]
  dsimp only
  split
  · simp
  · split <;> simp

theorem positive_getD {n? : Option Int} (h : ps.positive name = .ok n?) : 0 < n?.getD 1 := by
  cases n? with
  | none => decide
  | some n =>
    obtain ⟨-, -, -, hpos⟩ := positive_eq_ok_iff.mp h
    exact hpos

theorem positive_fault {fault : ParamFault} (h : ps.positive name = .error fault) :
    ∃ value reason, fault = .invalid name value reason := by
  unfold Params.positive at h
  split at h
  · cases h
  · split at h
    · exact ⟨_, _, (Except.error.inj h).symm⟩
    · split at h
      · cases h
      · exact ⟨_, _, (Except.error.inj h).symm⟩

theorem real_fault {fault : ParamFault} (h : ps.real name = .error fault) :
    ∃ value reason, fault = .invalid name value reason := by
  unfold Params.real at h
  split at h
  · cases h
  · split at h
    · exact ⟨_, _, (Except.error.inj h).symm⟩
    · split at h
      · cases h
      · exact ⟨_, _, (Except.error.inj h).symm⟩

theorem flag_fault {fault : ParamFault} (h : ps.flag name = .error fault) :
    ∃ value reason, fault = .invalid name value reason := by
  unfold Params.flag at h
  split at h
  · cases h
  · split at h
    · cases h
    · cases h
    · cases h
    · exact ⟨_, _, (Except.error.inj h).symm⟩

end Params

namespace Json

def Binary (s : String) : Prop := s.toList ≠ [] ∧ ∀ c ∈ s.toList, c = '0' ∨ c = '1'

inductive Denotes : Json → ℚ → Prop
  | int (n : Int) : Denotes (.int n) n
  | real {x : Float} (hx : x.isFinite) : Denotes (.real x) (value x)
  | bool (b : Bool) : Denotes (.bool b) (if b then 1 else 0)
  | binary {s : String} (hs : Binary s) : Denotes (.str s) (Nat.ofDigitChars 2 s.toList 0)
  | decimal {s : String} {n : Int} (hs : ¬ Binary s) (hn : DenotesInt (Text.trim s).toList n) :
    Denotes (.str s) n

def isNumber : Json → Bool
  | .int _ | .real _ => true
  | _ => false

/-- The integers of a document fit in 64 bits, with or without sign. -/
def Documented : Json → Prop
  | .int n => minInt64 ≤ n ∧ n ≤ maxWord64
  | _ => True

def Oversized (v : Json) : Prop := v.isNumber ∧ ∃ q, v.Denotes q ∧ maxInt64 < q

theorem absorb_le {n : Nat} (hn : n ≤ 0xFFFFFFFFFFFFFFFF) (ds : List Nat) :
    (Numeral.absorb n ds).1 ≤ 0xFFFFFFFFFFFFFFFF := by
  induction ds generalizing n with
  | nil => exact hn
  | cons d ds ih =>
    unfold Numeral.absorb
    split
    · rename_i hfits
      exact ih hfits
    · exact hn

theorem Numeral.documented {n : Numeral} {v : Json} (h : n.value? = some v) : v.Documented := by
  have hreal : ∀ {x? : Option Float}, x?.map Json.real = some v → v.Documented := fun h => by
    obtain ⟨x, -, rfl⟩ := Option.map_eq_some_iff.mp h
    trivial
  unfold Numeral.value? at h
  dsimp only at h
  split at h
  · exact hreal h
  · split at h
    · rename_i k habsorb
      have hk := absorb_le (Nat.zero_le _) n.whole
      rw [habsorb] at hk
      dsimp only at hk
      split at h
      · split at h
        · rename_i hfits
          obtain rfl := Option.some.inj h
          unfold Documented minInt64 maxWord64
          omega
        · exact hreal h
      · obtain rfl := Option.some.inj h
        unfold Documented minInt64 maxWord64
        omega
    · exact hreal h

theorem documented_of_yields {v : Json} (h : Schema.any.Yields v) : v.Documented := by
  obtain ⟨room, raw, h⟩ := h
  rw [Schema.conform?] at h
  cases v with
  | int n =>
    cases raw with
    | num m => exact Numeral.documented h
    | null => cases h
    | bool b => cases h
    | str s => simp [Raw.any?] at h
    | arr items => simp [Raw.any?, Option.bind_eq_some_iff] at h
    | obj members => simp [Raw.any?, Option.bind_eq_some_iff] at h
  | _ => trivial

theorem Binary.digits {s : String} (h : Binary s) : Digits s.toList := fun c hc => by
  obtain rfl | rfl := h.2 c hc <;> rfl

theorem ofDigitChars_mono {a b : Nat} (h : a ≤ b) (cs : List Char) :
    Nat.ofDigitChars a cs 0 ≤ Nat.ofDigitChars b cs 0 := by
  rw [Nat.ofDigitChars_eq_foldl, Nat.ofDigitChars_eq_foldl]
  suffices hle : ∀ m n : Nat, m ≤ n →
      cs.foldl (fun sofar c => a * sofar + (c.toNat - '0'.toNat)) m ≤
        cs.foldl (fun sofar c => b * sofar + (c.toNat - '0'.toNat)) n from hle 0 0 le_rfl
  induction cs with
  | nil => exact fun m n hmn => hmn
  | cons c cs ih =>
    intro m n hmn
    rw [List.foldl_cons, List.foldl_cons]
    exact ih _ _ (Nat.add_le_add_right (Nat.mul_le_mul h hmn) _)

theorem denotes_int_iff {n : Int} {q : ℚ} : Denotes (.int n) q ↔ q = n := by
  constructor
  · rintro ⟨⟩
    rfl
  · rintro rfl
    exact .int n

theorem denotes_real_iff {x : Float} {q : ℚ} : Denotes (.real x) q ↔ x.isFinite ∧ value x = q := by
  constructor
  · rintro ⟨⟩
    exact ⟨‹_›, rfl⟩
  · rintro ⟨hx, rfl⟩
    exact .real hx

theorem denotes_bool_iff {b : Bool} {q : ℚ} : Denotes (.bool b) q ↔ q = if b then 1 else 0 := by
  constructor
  · rintro ⟨⟩
    rfl
  · rintro rfl
    exact .bool b

theorem denotes_binary_iff {s : String} (hs : Binary s) {q : ℚ} :
    Denotes (.str s) q ↔ q = Nat.ofDigitChars 2 s.toList 0 := by
  constructor
  · rintro (_ | _ | _ | _ | ⟨hnot, -⟩)
    · rfl
    · exact absurd hs hnot
  · rintro rfl
    exact .binary hs

theorem denotes_decimal_iff {s : String} (hs : ¬ Binary s) {k : Int} :
    Denotes (.str s) k ↔ DenotesInt (Text.trim s).toList k := by
  constructor
  · intro h
    generalize hq : (k : ℚ) = q at h
    cases h with
    | binary hbinary => exact absurd hbinary hs
    | decimal _ hn => rwa [Int.cast_inj.mp hq]
  · exact .decimal hs

theorem Denotes.unique {v : Json} {p q : ℚ} (hp : v.Denotes p) (hq : v.Denotes q) : p = q := by
  cases hp with
  | int => exact (denotes_int_iff.mp hq).symm
  | real => exact (denotes_real_iff.mp hq).2
  | bool => exact (denotes_bool_iff.mp hq).symm
  | binary hs => exact ((denotes_binary_iff hs).mp hq).symm
  | decimal hs hn =>
    cases hq with
    | binary hbinary => exact absurd hbinary hs
    | decimal _ hm => rw [hn.unique hm]

theorem Oversized.exists_int {v : Json} (h : v.Oversized) :
    ∃ j : ℤ, v.Denotes j ∧ maxInt64 < j := by
  obtain ⟨hnum, q, hq, hlarge⟩ := h
  cases hq with
  | int n => exact ⟨n, .int n, by exact_mod_cast hlarge⟩
  | real hx =>
    have hbits : (2 : ℚ) ^ 53 ≤ maxInt64 := by norm_num [maxInt64]
    obtain ⟨j, hj⟩ := exists_int_of_large hx (hbits.trans hlarge.le)
    rw [hj, Int.cast_lt] at hlarge
    exact ⟨j, hj ▸ .real hx, hlarge⟩
  | bool b => cases hnum
  | binary hs => cases hnum
  | decimal hs hn => cases hnum

end Json

namespace NetlistDocument
open Json

theorem binary?_eq_some_iff {s : String} {n : Nat} :
    binary? s = some n ↔ Binary s ∧ Nat.ofDigitChars 2 s.toList 0 = n := by
  have hbinary : (!s.toList.isEmpty && s.toList.all fun c => c == '0' || c == '1') = true ↔
      Binary s := by
    simp [Binary]
  unfold binary?
  dsimp only
  rw [Option.ite_none_right_eq_some, hbinary]
  exact and_congr_right fun h => by rw [Option.some_inj, digitsValue_filterMap h.digits]

theorem trim_dropBlank (s : String) : Text.trim (dropBlank s) = Text.trim s := by
  unfold dropBlank
  split
  · rename_i cs hcs
    have hs : s = String.ofList (cs.reverse ++ [' ']) := by
      rw [← List.reverse_cons, ← hcs, List.reverse_reverse, String.ofList_toList]
    rw [hs, Text.trim_append_right (by simp [Text.isBlank])]
  · rfl

theorem toInt?_number {v : Json} {k : Int} (hv : v.Documented) (hnum : v.isNumber) :
    (readParam v).toInt? = some k ↔ ∃ j : ℤ, v.Denotes j ∧ clamp minInt64 maxInt64 j = k := by
  cases v with
  | int n =>
    obtain ⟨hlow, hhigh⟩ := hv
    simp only [denotes_int_iff, Int.cast_inj, exists_eq_left]
    by_cases hfits : n ≤ maxInt64
    · rw [readParam, if_pos hfits, Parameter.toInt?, Option.some_inj, clamp_of_mem hlow hfits]
    · rw [Int.not_le] at hfits
      obtain ⟨j, hj, hlarge⟩ := exists_toInt?_ofInt hfits hhigh
      rw [readParam, if_neg (Int.not_le.mpr hfits), Parameter.toInt?, hj, Option.map_some,
        Option.some_inj, clamp_of_lt (by decide) hlarge, clamp_of_lt (by decide) hfits]
  | real x =>
    simp only [denotes_real_iff, readParam, Parameter.toInt?, Option.map_eq_some_iff,
      toInt?_eq_some_iff]
  | null => cases hnum
  | bool b => cases hnum
  | str s => cases hnum
  | arr items => cases hnum
  | obj members => cases hnum

theorem toInt?_compact {v : Json} {c : Char} {cs : List Char} (hv : readParam v = .str v.compact)
    (hs : v.compact.toList = c :: cs) (hc : c ∈ ['n', '[', '\x7b']) :
    (readParam v).toInt? = none := by
  obtain ⟨hblank, hplus, hminus, hdigit⟩ :
      Text.isBlank c = false ∧ c ≠ '+' ∧ c ≠ '-' ∧ isDigit c = false := by
    simp only [List.mem_cons, List.not_mem_nil, or_false] at hc
    obtain rfl | rfl | rfl := hc <;> decide
  obtain ⟨rest, hrest⟩ := Text.exists_trim_cons hs hblank
  rw [hv, Parameter.toInt?, Option.eq_none_iff_forall_ne_some]
  intro k hk
  have hdenotes := (readInt64?_eq_some_iff.mp hk).1
  rw [hrest] at hdenotes
  cases hdenotes with
  | plain _ hds => exact Bool.false_ne_true (hdigit.symm.trans (hds c List.mem_cons_self))
  | plus => exact hplus rfl
  | minus => exact hminus rfl

theorem toInt?_str {s : String} {k : Int} : (readParam (.str s)).toInt? = some k ↔
    (Json.str s).Denotes k ∧ minInt64 ≤ k ∧ k ≤ maxInt64 := by
  rw [readParam]
  cases hbinary : binary? s with
  | some n =>
    obtain ⟨hs, rfl⟩ := binary?_eq_some_iff.mp hbinary
    have hcast : (k : ℚ) = Nat.ofDigitChars 2 s.toList 0 ↔ Nat.ofDigitChars 2 s.toList 0 = k := by
      norm_cast
      exact eq_comm
    have htrim : Text.trim s = s := Text.trim_of_forall fun c hc => by
      obtain rfl | rfl := hs.2 c hc <;> rfl
    rw [denotes_binary_iff hs, hcast]
    dsimp only
    split
    · rename_i hfits
      rw [Parameter.toInt?, Option.some_inj, iff_self_and]
      rintro rfl
      exact ⟨by unfold minInt64; omega, hfits⟩
    · -- the digits denote no less in base ten than in base two
      rename_i hfits
      rw [Parameter.toInt?, htrim, readInt64?_eq_some_iff]
      refine iff_of_false ?_ fun h => hfits (h.1 ▸ h.2.2)
      rintro ⟨hdenotes, -, hmost⟩
      have hmono := ofDigitChars_mono (a := 2) (b := 10) (by decide) s.toList
      rw [hdenotes.eq_of_digits hs.digits] at hmost
      omega
  | none =>
    have hs : ¬ Binary s := fun hs => by
      rw [binary?_eq_some_iff.mpr ⟨hs, rfl⟩] at hbinary
      cases hbinary
    rw [denotes_decimal_iff hs, Parameter.toInt?, trim_dropBlank, readInt64?_eq_some_iff]

theorem toInt?_text {v : Json} {k : Int} (hnum : v.isNumber = false) :
    (readParam v).toInt? = some k ↔ v.Denotes k ∧ minInt64 ≤ k ∧ k ≤ maxInt64 := by
  cases v with
  | int n => cases hnum
  | real x => cases hnum
  | bool b =>
    have hcast : (k : ℚ) = (if b then 1 else 0) ↔ (if b then 1 else 0) = k := by
      rw [eq_comm]
      cases b <;> norm_cast
    rw [denotes_bool_iff, hcast, readParam, Parameter.toInt?, Option.some_inj, iff_self_and]
    rintro rfl
    cases b <;> decide
  | str s => exact toInt?_str
  | null =>
    rw [toInt?_compact rfl rfl (by decide)]
    exact iff_of_false (by simp) fun h => by cases h.1
  | arr items =>
    have hs : (Json.arr items).compact.toList =
        '[' :: (",".intercalate (compactItems items) ++ "]").toList := by
      simp [compact]
    rw [toInt?_compact rfl hs (by decide)]
    exact iff_of_false (by simp) fun h => by cases h.1
  | obj members =>
    have hs : (Json.obj members).compact.toList =
        '\x7b' :: (",".intercalate (compactMembers members) ++ "\x7d").toList := by
      simp [compact]
    rw [toInt?_compact rfl hs (by decide)]
    exact iff_of_false (by simp) fun h => by cases h.1

theorem exists_toInt?_iff {v : Json} {n : Int} (hv : v.Documented) :
    (readParam v).toInt? = some n ∧ 0 < n ↔
      v.Denotes n ∧ 1 ≤ n ∧ n ≤ maxInt64 ∨ v.Oversized ∧ n = maxInt64 := by
  cases hnum : v.isNumber with
  | false =>
    have hnot : ¬ v.Oversized := fun h => Bool.false_ne_true (hnum.symm.trans h.1)
    rw [toInt?_text hnum, or_iff_left fun h => hnot h.1, and_assoc]
    refine and_congr_right fun _ => ?_
    unfold minInt64
    omega
  | true =>
    rw [toInt?_number hv hnum]
    constructor
    · rintro ⟨⟨j, hj, rfl⟩, hpos⟩
      obtain hfits | hlarge := le_or_gt j maxInt64
      · have hclamp : clamp minInt64 maxInt64 j = j := by
          unfold clamp minInt64 at *
          omega
        rw [hclamp] at hpos ⊢
        exact Or.inl ⟨hj, hpos, hfits⟩
      · exact Or.inr ⟨⟨hnum, j, hj, by exact_mod_cast hlarge⟩, clamp_of_lt (by decide) hlarge⟩
    · rintro (⟨hn, hpos, hfits⟩ | ⟨hlarge, rfl⟩)
      · have hlow : minInt64 ≤ n := by
          unfold minInt64
          omega
        exact ⟨⟨n, hn, clamp_of_mem hlow hfits⟩, hpos⟩
      · obtain ⟨j, hj, hlt⟩ := hlarge.exists_int
        exact ⟨⟨j, hj, clamp_of_lt (by decide) hlt⟩, by decide⟩

/-- A divisor is the positive integer of 64 bits that the value in the document denotes, for all
values but the numbers beyond 64 bits. -/
theorem positive_readParam {ps : Params} {name : String} {v : Json} (hv : v.Documented)
    (hget : ps.get? name = some (readParam v)) :
    (∀ n, ps.positive name = .ok (some n) ↔
      v.Denotes n ∧ 1 ≤ n ∧ n ≤ maxInt64 ∨ v.Oversized ∧ n = maxInt64) ∧
    ((∃ n, ps.positive name = .ok (some n)) ∨ ∃ fault, ps.positive name = .error fault) ∧
    ((∀ n, ps.positive name = .ok (some n) → v.Denotes n ∧ n ≤ maxInt64) ↔ ¬ v.Oversized) := by
  have hread : ∀ n, ps.positive name = .ok (some n) ↔
      v.Denotes n ∧ 1 ≤ n ∧ n ≤ maxInt64 ∨ v.Oversized ∧ n = maxInt64 := fun n => by
    rw [Params.positive_eq_ok_iff, ← exists_toInt?_iff hv]
    simp only [hget, Option.some_inj, exists_eq_left']
  refine ⟨hread, ?_, fun h hlarge => ?_, fun hnot n hn => ?_⟩
  · cases hpositive : ps.positive name with
    | error fault => exact Or.inr ⟨fault, rfl⟩
    | ok n? =>
      cases n? with
      | none => exact absurd hpositive (Params.positive_ne_none hget)
      | some n => exact Or.inl ⟨n, rfl⟩
  · obtain ⟨j, hj, hlt⟩ := hlarge.exists_int
    have hmost := (h maxInt64 ((hread _).mpr (Or.inr ⟨hlarge, rfl⟩))).1
    exact absurd (Int.cast_inj.mp (hj.unique hmost)) hlt.ne'
  · obtain ⟨hdenotes, -, hfits⟩ := ((hread n).mp hn).resolve_right fun h => hnot h.1
    exact ⟨hdenotes, hfits⟩

theorem positive_readParam_padded :
    let v := Json.str "0000000000000000000000000000000000000000000000000000000000000000000101"
    let ps : Params := [("BUFR_DIVIDE", readParam v)]
    v.Documented ∧ ps.get? "BUFR_DIVIDE" = some (readParam v) ∧
      ps.positive "BUFR_DIVIDE" = .ok (some 5) ∧ v.Denotes 5 := by
  intro v ps
  have hv : v.Documented := trivial
  have hpositive : ps.positive "BUFR_DIVIDE" = .ok (some 5) := by decide +kernel
  have hget : ps.get? "BUFR_DIVIDE" = some (readParam v) := rfl
  have hread := ((positive_readParam hv hget).1 5).mp hpositive
  have hdenotes := (hread.resolve_right fun h => absurd h.2 (by decide)).1
  exact ⟨hv, hget, hpositive, by exact_mod_cast hdenotes⟩

theorem positive_readParam_clamps :
    let v := Json.int 12345678901234567890
    v.Documented ∧ v.Denotes 12345678901234567890 ∧
      Params.positive [("BUFR_DIVIDE", readParam v)] "BUFR_DIVIDE" =
        .ok (some 9223372036854775807) ∧ ¬ v.Denotes 9223372036854775807 ∧
      Params.positive [("BUFR_DIVIDE", readParam (.str "12345678901234567890"))] "BUFR_DIVIDE" =
        .error (.invalid "BUFR_DIVIDE" "\"12345678901234567890\"" Requirement.integer) := by
  refine ⟨⟨by decide, by decide⟩, by exact_mod_cast Denotes.int 12345678901234567890,
    by decide +kernel, ?_, by decide +kernel⟩
  rw [denotes_int_iff]
  norm_num

end NetlistDocument
end ClockTree
