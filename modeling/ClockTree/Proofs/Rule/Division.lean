import ClockTree.Proofs.Netlist.Divisors
import ClockTree.Proofs.Outcome
import ClockTree.Proofs.Rule.Placed

/-!
# Dividers

A divider that does not refuse the parameters of a cell divides by a positive integer, and a chain
of dividers that do not invert divides by the product. A divider with a parameter or a ratio, which is
not zero, lacks a number only where it has no ratio and the cell does not set the parameter.
-/
namespace ClockTree
open Number

/-! ### Divided waves -/

namespace Wave
variable {w : Wave ℚ}

theorem divide_eq (w : Wave ℚ) (n : ℤ) (inverted : Bool) :
    w.divide (Scalar.ofInt n) inverted =
      if n = 1 ∧ inverted = false then w
      else placed (w.period * n) (if inverted then w.rise + w.period * n / 2 else w.rise)
        (w.period * n / 2) := by
  have hone : (Scalar.same (Scalar.ofInt n : ℚ) Scalar.one && !inverted) = true ↔
      n = 1 ∧ inverted = false := by
    rw [Bool.and_eq_true, same_one_iff, Bool.not_eq_true']
    exact and_congr_left fun _ => Int.cast_eq_one
  rw [divide, if_congr hone rfl rfl]
  rfl

theorem Valid.divide (hw : w.Valid) {n : ℤ} (hn : 0 < n) (inverted : Bool) :
    (w.divide (Scalar.ofInt n) inverted).Valid := by
  have hperiod : 0 < w.period * n := mul_pos (valid_rat_iff.mp hw).1 (Int.cast_pos.mpr hn)
  rw [divide_eq]
  split
  · exact hw
  · exact valid_placed _ (half_pos hperiod) (half_lt_self hperiod)

def slowed (w : Wave ℚ) (n : Nat) : Wave ℚ :=
  ⟨w.period * n, w.rise, if n = 1 then w.fall else w.rise + w.period * n / 2⟩

theorem Valid.divide_eq_slowed (hw : w.Valid) {n : Nat} (hn : 0 < n) :
    w.divide (Scalar.ofInt n) false = w.slowed n := by
  obtain ⟨hperiod, ⟨hzero, hbefore⟩, -⟩ := valid_rat_iff.mp hw
  have hlonger : w.period ≤ w.period * n :=
    le_mul_of_one_le_right hperiod.le (Nat.one_le_cast.mpr hn)
  have hrise : Scalar.modulo w.rise (w.period * n) = w.rise :=
    modulo_of_lt hzero (hbefore.trans_le hlonger)
  rw [divide_eq, slowed]
  by_cases hone : n = 1
  · simp [hone]
  · simp [hone, placed, hrise]

theorem Valid.slowed (hw : w.Valid) {n : Nat} (hn : 0 < n) : (w.slowed n).Valid := by
  rw [← hw.divide_eq_slowed hn]
  exact hw.divide (Int.natCast_pos.mpr hn) false

theorem slowed_one (w : Wave ℚ) : w.slowed 1 = w := by
  rw [slowed, Nat.cast_one, mul_one, if_pos rfl]

theorem slowed_slowed (w : Wave ℚ) (m n : Nat) : (w.slowed m).slowed n = w.slowed (m * n) := by
  simp only [slowed, Nat.cast_mul, mul_assoc, mul_eq_one]
  by_cases hn : n = 1 <;> simp [hn]

end Wave

namespace Transform
variable {ps : Params}

/-! ### What a divider divides by -/

inductive DividesBy (ps : Params) : Option String → Option Nat → ℤ → Prop
  | bypass {name : String} {v : Parameter} {fixed : Option Nat} (hget : ps.get? name = some v)
    (hv : isBypass v) : DividesBy ps (some name) fixed 1
  | number {name : String} {v : Parameter} {fixed : Option Nat} {n : ℤ}
    (hget : ps.get? name = some v) (hv : v.toInt? = some n) (hn : 0 < n) :
    DividesBy ps (some name) fixed n
  | ratio {param : Option String} {n : Nat} (hunset : ∀ name ∈ param, ps.get? name = none)
    (hn : 0 < n) : DividesBy ps param (some n) n

theorem DividesBy.pos {param : Option String} {fixed : Option Nat} {n : ℤ}
    (h : DividesBy ps param fixed n) : 0 < n := by
  cases h with
  | bypass => decide
  | number _ _ hn => exact hn
  | ratio _ hn => exact Int.natCast_pos.mpr hn

theorem toInt?_bypass {v : Parameter} (h : isBypass v) : v.toInt? = none := by
  rw [Option.eq_none_iff_forall_ne_some]
  intro n hn
  cases v with
  | int k => cases h
  | real x => cases h
  | str s =>
    have hs : s.toUpper = "BYPASS" := by simpa [isBypass, Parameter.toText?] using h
    obtain ⟨c, hc, hdigit⟩ := (readInt64?_eq_some_iff.mp hn).1.exists_digit
    have hletter : c.toUpper ∈ "BYPASS".toList := by
      rw [← hs, String.toUpper, String.toList_map]
      exact List.mem_map_of_mem (Text.mem_of_mem_trim hc)
    have hdigits : "0123456789".toList.all (·.toUpper ∉ "BYPASS".toList) := by decide
    exact of_decide_eq_true (List.all_eq_true.mp hdigits c (mem_digits hdigit)) hletter

theorem divisor_set {name : String} {v : Parameter} {fixed : Option Nat} {n : ℤ}
    (hget : ps.get? name = some v) : divisor (some name) fixed ps = .ok n ↔
      isBypass v ∧ n = 1 ∨ v.toInt? = some n ∧ 0 < n := by
  by_cases hbypass : isBypass v
  · simp [divisor, hget, hbypass, toInt?_bypass hbypass, eq_comm]
  · have hpositive : ps.positive name = .ok (some n) ↔ v.toInt? = some n ∧ 0 < n := by
      rw [Params.positive_eq_ok_iff]
      simp only [hget, Option.some_inj, exists_eq_left']
    rw [or_iff_right fun h => hbypass h.1, ← hpositive]
    cases hread : ps.positive name with
    | error e => simp [divisor, hget, hbypass, hread]
    | ok n? =>
      cases n? with
      | none => exact absurd hread (Params.positive_ne_none hget)
      | some k => simp [divisor, hget, hbypass, hread]

theorem divisor_unset {param : Option String} {fixed : Option Nat} {n : ℤ}
    (hunset : ∀ name ∈ param, ps.get? name = none) :
    divisor param fixed ps = .ok n ↔ ∃ k : Nat, fixed = some k ∧ 0 < k ∧ k = n := by
  cases param with
  | none => rcases fixed with _ | _ | k <;> simp [divisor]
  | some name => rcases fixed with _ | _ | k <;> simp [divisor, hunset name rfl]

theorem divisor_eq_ok_iff {param : Option String} {fixed : Option Nat} {n : ℤ} :
    divisor param fixed ps = .ok n ↔ DividesBy ps param fixed n := by
  constructor
  · intro h
    by_cases hset : ∃ name ∈ param, ps.get? name ≠ none
    · obtain ⟨name, rfl, hset⟩ := hset
      obtain ⟨v, hget⟩ := Option.ne_none_iff_exists'.mp hset
      obtain ⟨hv, rfl⟩ | ⟨hv, hn⟩ := (divisor_set hget).mp h
      · exact .bypass hget hv
      · exact .number hget hv hn
    · have hunset : ∀ name ∈ param, ps.get? name = none := by simpa using hset
      obtain ⟨k, rfl, hk, rfl⟩ := (divisor_unset hunset).mp h
      exact .ratio hunset hk
  · rintro (⟨hget, hv⟩ | ⟨hget, hv, hn⟩ | ⟨hunset, hn⟩)
    · exact (divisor_set hget).mpr (Or.inl ⟨hv, rfl⟩)
    · exact (divisor_set hget).mpr (Or.inr ⟨hv, hn⟩)
    · exact (divisor_unset hunset).mpr ⟨_, rfl, hn, rfl⟩

def inverts (invert : Option String) (ps : Params) : Except ParamFault Bool :=
  match invert with
  | some name => ps.flag name
  | none => .ok false

theorem apply_divider {R : Type} [Scalar R] (param invert : Option String) (fixed : Option Nat)
    (w : Wave R) : (divider param invert fixed).apply w ps = do
      let n ← divisor param fixed ps
      let inverted ← inverts invert ps
      return w.divide (Scalar.ofInt n) inverted := by
  cases invert <;> rfl

/-! ### Branches of a divider -/

def ownDivisor (param : Option String) (ps : Params) : Except ParamFault (Option ℤ) :=
  match param with
  | none => .ok none
  | some name => match ps.get? name with
    | none => .ok none
    | some v => if isBypass v then .ok (some 1) else ps.positive name

/-- The branch that a divider takes once it has read its parameter. -/
inductive Branch where
  | own (n : ℤ)
  | zeroRatio
  | ratio (n : Nat)
  | noRatio

namespace Branch

def select : Option ℤ → Option Nat → Branch
  | some n, _ => .own n
  | none, some 0 => .zeroRatio
  | none, some n => .ratio n
  | none, none => .noRatio

def divisor (param : Option String) : Branch → Except ParamFault ℤ
  | .own n => .ok n
  | .zeroRatio => .error (.invalid "divisor" "0" Requirement.positive)
  | .ratio n => .ok n
  | .noRatio => .error (.missing (param.getD "divisor"))

theorem select_eq_zeroRatio_iff {own : Option ℤ} {fixed : Option Nat} :
    select own fixed = .zeroRatio ↔ own = none ∧ fixed = some 0 := by
  rcases own with _ | n <;> rcases fixed with _ | _ | k <;> simp [select]

theorem select_eq_noRatio_iff {own : Option ℤ} {fixed : Option Nat} :
    select own fixed = .noRatio ↔ own = none ∧ fixed = none := by
  rcases own with _ | n <;> rcases fixed with _ | _ | k <;> simp [select]

theorem divisor_eq_missing_iff {param : Option String} {b : Branch} {name : String} :
    b.divisor param = .error (.missing name) ↔ b = .noRatio ∧ param.getD "divisor" = name := by
  cases b <;> simp [divisor]

end Branch

def branch (param : Option String) (fixed : Option Nat) (ps : Params) : Except ParamFault Branch :=
  (ownDivisor param ps).map (Branch.select · fixed)

theorem divisor_eq_branch (param : Option String) (fixed : Option Nat) (ps : Params) :
    divisor param fixed ps = branch param fixed ps >>= Branch.divisor param := by
  unfold divisor
  extract_lets own
  have hown : own = ownDivisor param ps := rfl
  rw [branch, ← hown]
  clear_value own
  rcases own with e | _ | n <;> rcases fixed with _ | _ | k <;> rfl

theorem ownDivisor_eq_none_iff {param : Option String} :
    ownDivisor param ps = .ok none ↔ ∀ name ∈ param, ps.get? name = none := by
  cases param with
  | none => simp [ownDivisor]
  | some name =>
    cases hget : ps.get? name with
    | none => simp [ownDivisor, hget]
    | some v =>
      have hset : ownDivisor (some name) ps ≠ .ok none := by
        simp only [ownDivisor, hget]
        split
        · simp
        · exact Params.positive_ne_none hget
      simp [hset, hget]

theorem branch_eq_iff {b : Branch} {ratio : Option Nat}
    (hb : ∀ own fixed, Branch.select own fixed = b ↔ own = none ∧ fixed = ratio)
    {param : Option String} {fixed : Option Nat} : branch param fixed ps = .ok b ↔
      (∀ name ∈ param, ps.get? name = none) ∧ fixed = ratio := by
  have hselect : branch param fixed ps = .ok b ↔
      ∃ own, ownDivisor param ps = .ok own ∧ Branch.select own fixed = b := by
    cases h : ownDivisor param ps <;> simp [branch, h, Except.map]
  rw [hselect, ← ownDivisor_eq_none_iff]
  simp only [hb]
  constructor
  · rintro ⟨own, hown, rfl, hfixed⟩
    exact ⟨hown, hfixed⟩
  · rintro ⟨hown, hfixed⟩
    exact ⟨none, hown, rfl, hfixed⟩

theorem branch_eq_zeroRatio_iff {param : Option String} {fixed : Option Nat} :
    branch param fixed ps = .ok .zeroRatio ↔
      (∀ name ∈ param, ps.get? name = none) ∧ fixed = some 0 :=
  branch_eq_iff fun _ _ => Branch.select_eq_zeroRatio_iff

theorem branch_eq_noRatio_iff {param : Option String} {fixed : Option Nat} :
    branch param fixed ps = .ok .noRatio ↔
      (∀ name ∈ param, ps.get? name = none) ∧ fixed = none :=
  branch_eq_iff fun _ _ => Branch.select_eq_noRatio_iff

theorem ownDivisor_ne_missing {param : Option String} {name : String} :
    ownDivisor param ps ≠ .error (.missing name) := by
  unfold ownDivisor
  split
  · nofun
  · split
    · nofun
    · split
      · nofun
      · intro h
        obtain ⟨value, reason, hfault⟩ := Params.positive_fault h
        cases hfault

theorem inverts_ne_missing {invert : Option String} {name : String} :
    inverts invert ps ≠ .error (.missing name) := by
  cases invert with
  | none => nofun
  | some param =>
    intro h
    obtain ⟨value, reason, hfault⟩ := Params.flag_fault h
    cases hfault

theorem apply_eq_missing_iff {R : Type} [Scalar R] {param invert : Option String}
    {fixed : Option Nat} {w : Wave R} {name : String} :
    (divider param invert fixed).apply w ps = .error (.missing name) ↔
      branch param fixed ps = .ok .noRatio ∧ param.getD "divisor" = name := by
  have hbranch : branch param fixed ps ≠ .error (.missing name) := by
    unfold branch
    cases h : ownDivisor param ps with
    | error e => exact fun he => ownDivisor_ne_missing (h.trans (congrArg _ (Except.error.inj he)))
    | ok own => nofun
  have hdivisor : divisor param fixed ps = .error (.missing name) ↔
      branch param fixed ps = .ok .noRatio ∧ param.getD "divisor" = name := by
    rw [divisor_eq_branch, bind_eq_error_iff, or_iff_right hbranch]
    simp only [Branch.divisor_eq_missing_iff]
    exact ⟨fun ⟨_, hb, rfl, hname⟩ => ⟨hb, hname⟩, fun ⟨hb, hname⟩ => ⟨_, hb, rfl, hname⟩⟩
  rw [apply_divider, bind_eq_error_iff, ← hdivisor]
  refine or_iff_left ?_
  rintro ⟨n, -, h⟩
  obtain h | ⟨inverted, -, h⟩ := bind_eq_error_iff.mp h
  · exact inverts_ne_missing h
  · cases h

/-! ### Dividers that have a number -/

@[mk_iff]
structure Founded (param : Option String) (fixed : Option Nat) : Prop where
  nonzero : fixed ≠ some 0
  given : param.isSome ∨ fixed.isSome

namespace Founded
variable {param invert : Option String} {fixed : Option Nat}

theorem branch_ne_zeroRatio (h : Founded param fixed) (ps : Params) :
    branch param fixed ps ≠ .ok .zeroRatio :=
  fun hbranch => h.nonzero (branch_eq_zeroRatio_iff.mp hbranch).2

theorem branch_eq_noRatio_iff (h : Founded param fixed) :
    branch param fixed ps = .ok .noRatio ↔ fixed = none ∧ ∃ name ∈ param, ps.get? name = none := by
  rw [Transform.branch_eq_noRatio_iff, and_comm]
  refine and_congr_right fun hfixed => ?_
  obtain ⟨name, rfl⟩ := Option.isSome_iff_exists.mp (h.given.resolve_right (by simp [hfixed]))
  simp

theorem apply_eq_missing_iff (h : Founded param fixed) {R : Type} [Scalar R] {w : Wave R}
    {name : String} : (divider param invert fixed).apply w ps = .error (.missing name) ↔
      fixed = none ∧ param = some name ∧ ps.get? name = none := by
  rw [Transform.apply_eq_missing_iff, h.branch_eq_noRatio_iff, and_assoc]
  refine and_congr_right fun _ => ⟨?_, ?_⟩
  · rintro ⟨⟨own, rfl, hunset⟩, rfl⟩
    exact ⟨rfl, hunset⟩
  · rintro ⟨rfl, hunset⟩
    exact ⟨⟨name, rfl, hunset⟩, rfl⟩

end Founded

section
variable {R : Type} [Scalar R]

inductive Grounded : Over R → Prop
  | transparent : Grounded transparent
  | inverter : Grounded inverter
  | pll (output : Nat) : Grounded (pll output)
  | divider {param fixed} (invert : Option String) (h : Founded param fixed) :
    Grounded (divider param invert fixed)

theorem eitherReal_fault {first second : String} {fault : ParamFault}
    (h : eitherReal ps first second = .error fault) :
    ∃ name ∈ [first, second], ∃ value reason, fault = .invalid name value reason := by
  obtain h | ⟨x, -, h⟩ := bind_eq_error_iff.mp h
  · exact ⟨first, by simp, Params.real_fault h⟩
  · cases x with
    | some x => cases h
    | none => exact ⟨second, by simp, Params.real_fault h⟩

theorem loopOutput_fault {output : Nat} {w : Wave R} {fault : ParamFault}
    (h : loopOutput output w ps = .error fault) :
    ∃ name value reason, fault = .invalid name value reason ∧ name ≠ "divisor" := by
  have hname (suffix : String) : "CLKOUT" ++ toString output ++ suffix ≠ "divisor" := fun h =>
    absurd (congrArg (·.toList.head?) h) (by simp)
  unfold loopOutput at h
  obtain h | ⟨multiplier?, -, h⟩ := bind_eq_error_iff.mp h
  · obtain ⟨name, hmem, value, reason, rfl⟩ := eitherReal_fault h
    refine ⟨name, value, reason, rfl, ?_⟩
    rintro rfl
    exact absurd hmem (by decide)
  dsimp only at h
  obtain ⟨-, rfl⟩ | ⟨-, h⟩ := ite_throw_eq_error_iff.mp h
  · exact ⟨_, _, _, rfl, by decide⟩
  obtain h | ⟨inputDivider?, -, h⟩ := bind_eq_error_iff.mp h
  · obtain ⟨value, reason, rfl⟩ := Params.positive_fault h
    exact ⟨_, _, _, rfl, by decide⟩
  obtain h | ⟨outputDivider?, -, h⟩ := bind_eq_error_iff.mp h
  · obtain ⟨name, hmem, value, reason, rfl⟩ := eitherReal_fault h
    refine ⟨name, value, reason, rfl, ?_⟩
    rintro rfl
    obtain hmem | hmem := List.mem_pair.mp hmem
    · exact hname _ hmem.symm
    · exact hname _ hmem.symm
  obtain ⟨-, rfl⟩ | ⟨-, h⟩ := ite_throw_eq_error_iff.mp h
  · exact ⟨_, _, _, rfl, hname _⟩
  obtain h | ⟨share?, -, h⟩ := bind_eq_error_iff.mp h
  · obtain ⟨value, reason, rfl⟩ := Params.real_fault h
    exact ⟨_, _, _, rfl, hname _⟩
  obtain ⟨-, rfl⟩ | ⟨-, h⟩ := ite_throw_eq_error_iff.mp h
  · exact ⟨_, _, _, rfl, hname _⟩
  obtain h | ⟨phase?, -, h⟩ := bind_eq_error_iff.mp h
  · obtain ⟨value, reason, rfl⟩ := Params.real_fault h
    exact ⟨_, _, _, rfl, hname _⟩
  · cases h

theorem Grounded.apply_nil_ne {t : Over R} (h : Grounded t) (w : Wave R) :
    t.apply w [] ≠ .error (.invalid "divisor" "0" Requirement.positive) := by
  cases h with
  | transparent => nofun
  | inverter => nofun
  | pll output =>
    intro h
    obtain ⟨name, value, reason, hfault, hname⟩ := loopOutput_fault h
    cases hfault
    exact hname rfl
  | @divider param fixed invert h =>
    rcases fixed with _ | _ | n
    · cases param <;> cases invert <;> nofun
    · exact absurd rfl h.nonzero
    · cases param <;> cases invert <;> nofun

theorem Grounded.apply_ne_missing {t : Over R} (h : Grounded t) (w : Wave R) (name : String)
    (hset : (ps.get? name).isSome) : t.apply w ps ≠ .error (.missing name) := by
  intro happly
  cases h with
  | transparent => cases happly
  | inverter => cases happly
  | pll output =>
    obtain ⟨name, value, reason, hfault, -⟩ := loopOutput_fault happly
    cases hfault
  | divider invert h =>
    obtain ⟨-, -, hunset⟩ := h.apply_eq_missing_iff.mp happly
    rw [hunset] at hset
    cases hset

/-- The function alone tells that a divider has a number: without one it refuses cells that no
grounded transform refuses. -/
theorem Grounded.founded {param invert : Option String} {fixed : Option Nat}
    (h : Grounded (Transform.divider param invert fixed : Over R)) : Founded param fixed := by
  let w : Wave R := .symmetric Scalar.one
  constructor
  · rintro rfl
    refine h.apply_nil_ne w ?_
    cases param <;> rfl
  · by_contra hnone
    obtain ⟨rfl, rfl⟩ : param = none ∧ fixed = none := by simpa using hnone
    let ps : Params := [("divisor", .int 1)]
    have hset : (ps.get? "divisor").isSome := rfl
    exact h.apply_ne_missing w "divisor" hset rfl

end

/-! ### Chains of dividers -/

inductive Divides : Over ℚ × Params → Nat → Prop
  | intro {param invert : Option String} {fixed : Option Nat} {ps : Params} {n : Nat}
    (hn : DividesBy ps param fixed n) (hplain : inverts invert ps = .ok false) :
    Divides (divider param invert fixed, ps) n

def chain {R : Type} (w : Wave R) (stages : List (Over R × Params)) :
    Except ParamFault (Wave R) :=
  stages.foldlM (fun w stage => stage.1.apply w stage.2) w

theorem Divides.pos {stage : Over ℚ × Params} {n : Nat} (h : Divides stage n) : 0 < n := by
  obtain ⟨hn, -⟩ := h
  exact Int.natCast_pos.mp hn.pos

theorem Divides.apply_eq {w : Wave ℚ} {stage : Over ℚ × Params} {n : Nat} (h : Divides stage n)
    (hw : w.Valid) : stage.1.apply w stage.2 = .ok (w.slowed n) := by
  have hpos := h.pos
  obtain ⟨hn, hplain⟩ := h
  rw [apply_divider, divisor_eq_ok_iff.mpr hn, hplain, ← hw.divide_eq_slowed hpos]
  rfl

theorem chain_eq_slowed {w : Wave ℚ} {stages : List (Over ℚ × Params)} {ns : List Nat}
    (h : List.Forall₂ Divides stages ns) (hw : w.Valid) :
    chain w stages = .ok (w.slowed ns.prod) := by
  induction h generalizing w with
  | nil => exact congrArg Except.ok w.slowed_one.symm
  | cons hstage _ ih =>
    -- the rest of the chain sees a valid wave again
    rw [List.prod_cons, ← Wave.slowed_slowed, ← ih (hw.slowed hstage.pos), chain,
      List.foldlM_cons, hstage.apply_eq hw]
    rfl

theorem chain_eq_product {w : Wave ℚ} (hw : w.Valid) {stages : List (Over ℚ × Params)}
    {ns : List Nat} (h : List.Forall₂ Divides stages ns) :
    chain w stages = .ok ⟨w.period * ns.prod, w.rise,
      if ∀ n ∈ ns, n = 1 then w.fall else w.rise + w.period * ns.prod / 2⟩ ∧
    ∀ others ms, List.Forall₂ Divides others ms → ms.prod = ns.prod →
      chain w others = chain w stages := by
  refine ⟨?_, fun others ms hothers hprod => ?_⟩
  · have hone : ns.prod = 1 ↔ ∀ n ∈ ns, n = 1 := by
      simp only [← Nat.isUnit_iff, List.prod_isUnit_iff]
    rw [chain_eq_slowed h hw, Wave.slowed, if_congr hone rfl rfl]
  · rw [chain_eq_slowed h hw, chain_eq_slowed hothers hw, hprod]

theorem chain_eq_product_bypass :
    let w : Wave ℚ := ⟨10, 6, 13⟩
    let stages : List (Over ℚ × Params) := [(byRatio 3, []),
      (byParameter "BUFR_DIVIDE" none, [("BUFR_DIVIDE", .str "Bypass")]),
      (byParameter "DIVISOR" (some "INVERT"), [("DIVISOR", .real 4), ("INVERT", .str "false")])]
    w.Valid ∧ List.Forall₂ Divides stages [3, 1, 4] ∧ chain w stages = .ok ⟨120, 6, 66⟩ ∧
      chain w [(byRatio 12, [])] = .ok ⟨120, 6, 66⟩ := by
  intro w stages
  have hw : w.Valid := by decide +kernel
  have hbypass : isBypass (.str "Bypass") := by decide +kernel
  have hratio : ∀ n : Nat, 0 < n → Divides (byRatio n, []) n := fun n hn =>
    .intro (.ratio (by simp) hn) rfl
  have hreal : (Parameter.real 4).toInt? = some 4 := by decide +kernel
  have hflag : Params.flag [("DIVISOR", .real 4), ("INVERT", .str "false")] "INVERT" =
      .ok false := by decide +kernel
  have hstages : List.Forall₂ Divides stages [3, 1, 4] :=
    .cons (hratio 3 (by decide)) (.cons (.intro (.bypass rfl hbypass) rfl)
      (.cons (.intro (.number rfl hreal (by decide)) hflag) .nil))
  obtain ⟨hchain, hothers⟩ := chain_eq_product hw hstages
  have hthis : chain w stages = .ok ⟨120, 6, 66⟩ := by
    rw [hchain, if_neg (by decide)]
    norm_num [w]
  refine ⟨hw, hstages, hthis, ?_⟩
  rw [hothers _ [12] (.cons (hratio 12 (by decide)) .nil) (by decide), hthis]

end Transform
end ClockTree
