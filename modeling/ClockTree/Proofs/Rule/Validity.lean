import ClockTree.Proofs.Rule.Division
import ClockTree.Propagation.Pass

/-!
# Transforms keep waves valid

A phase-locked loop that does not refuse the parameters of a cell has settings with a positive
multiplier, positive dividers and a duty cycle between zero and one. So in exact arithmetic every
transform refuses the cell or gives a valid wave, and the check that a pass makes of the result
refuses nothing.
-/
namespace ClockTree
open Number

namespace Transform
variable {ps : Params}

/-! ### Phase-locked loops -/

structure LoopSettings where
  multiplier : ℚ
  inputDivider : ℚ
  outputDivider : ℚ
  share : ℚ
  phase : ℚ
  multiplier_pos : 0 < multiplier
  inputDivider_pos : 0 < inputDivider
  outputDivider_pos : 0 < outputDivider
  share_pos : 0 < share
  share_lt : share < 1

namespace LoopSettings

def period (s : LoopSettings) (w : Wave ℚ) : ℚ :=
  w.period * s.inputDivider * s.outputDivider / s.multiplier

def output (s : LoopSettings) (w : Wave ℚ) : Wave ℚ :=
  .placed (s.period w) (s.period w * s.phase / 360) (s.period w * s.share)

theorem valid_output (s : LoopSettings) {w : Wave ℚ} (h : 0 < w.period) : (s.output w).Valid := by
  have hperiod : 0 < s.period w :=
    div_pos (mul_pos (mul_pos h s.inputDivider_pos) s.outputDivider_pos) s.multiplier_pos
  exact Wave.valid_placed _ (mul_pos hperiod s.share_pos)
    (mul_lt_of_lt_one_right hperiod s.share_lt)

end LoopSettings

variable {w out : Wave ℚ}

theorem exists_settings {output : Nat} (h : loopOutput output w ps = .ok out) :
    ∃ s : LoopSettings, s.output w = out := by
  unfold loopOutput at h
  -- each check that is passed bounds one of the settings
  obtain ⟨multiplier?, -, h⟩ := bind_eq_ok_iff.mp h
  dsimp only at h
  obtain ⟨hmultiplier, h⟩ := ite_throw_eq_ok_iff.mp h
  obtain ⟨inputDivider?, hinput, h⟩ := bind_eq_ok_iff.mp h
  obtain ⟨outputDivider?, -, h⟩ := bind_eq_ok_iff.mp h
  obtain ⟨houtput, h⟩ := ite_throw_eq_ok_iff.mp h
  obtain ⟨share?, -, h⟩ := bind_eq_ok_iff.mp h
  obtain ⟨hshare, h⟩ := ite_throw_eq_ok_iff.mp h
  obtain ⟨phase?, -, h⟩ := bind_eq_ok_iff.mp h
  rw [atMost_zero_iff, not_le] at hmultiplier houtput
  rw [Bool.not_eq_true, Bool.not_eq_false', Bool.and_eq_true, positive_iff, less_one_iff] at hshare
  have hinput : (0 : ℚ) < inputDivider?.getD 1 := Int.cast_pos.mpr (Params.positive_getD hinput)
  exact ⟨⟨_, _, _, _, value (phase?.getD 0), hmultiplier, hinput, houtput, hshare.1, hshare.2⟩,
    Except.ok.inj h⟩

/-! ### All transforms -/

section
variable {R : Type} [Scalar R]

/-- The transforms that the rules of the program are made of. -/
inductive Builtin : Over R → Prop
  | transparent : Builtin transparent
  | inverter : Builtin inverter
  | pll (output : Nat) : Builtin (pll output)
  | divider (param invert : Option String) (fixed : Option Nat) :
    Builtin (divider param invert fixed)

def Over.checked (t : Over R) (w : Wave R) (ps : Params) :
    Except (ParamFault ⊕ WaveFault R) (Wave R) :=
  match t.apply w ps with
  | .error fault => .error (.inl fault)
  | .ok out => match out.fault? with
    | some fault => .error (.inr fault)
    | none => .ok out

end

theorem outputWave_eq_checked (t : Transform) (w : Wave Float) (ps : Params) :
    Walk.outputWave t w ps =
      (t.checked w ps).mapError (Sum.elim ParamFault.message WaveFault.message) := by
  unfold Walk.outputWave Over.checked
  cases t.apply w ps with
  | error fault => rfl
  | ok out =>
    dsimp only
    cases out.fault? <;> rfl

theorem Builtin.valid_apply {t : Over ℚ} (ht : Builtin t) (hw : w.Valid)
    (h : t.apply w ps = .ok out) : out.Valid := by
  cases ht with
  | transparent => exact Except.ok.inj h ▸ hw
  | inverter => exact Except.ok.inj h ▸ hw.invert
  | divider param invert fixed =>
    rw [apply_divider] at h
    obtain ⟨n, hn, h⟩ := bind_eq_ok_iff.mp h
    obtain ⟨inverted, -, h⟩ := bind_eq_ok_iff.mp h
    exact Except.ok.inj h ▸ hw.divide (divisor_eq_ok_iff.mp hn).pos inverted
  | pll output =>
    obtain ⟨s, rfl⟩ := exists_settings h
    exact s.valid_output (Wave.valid_rat_iff.mp hw).1

/-- A transform refuses the cell or gives a valid wave, so the check behind it, which a pass makes
(`outputWave_eq_checked`), refuses nothing more. -/
theorem apply_keeps_valid {t : Over ℚ} (ht : Builtin t) {w : Wave ℚ} (hw : w.Valid) (ps : Params) :
    ((∃ fault, t.apply w ps = .error fault) ∨ ∃ out, t.apply w ps = .ok out ∧ out.Valid) ∧
      t.checked w ps = (t.apply w ps).mapError .inl := by
  unfold Over.checked
  cases happly : t.apply w ps with
  | error fault => exact ⟨Or.inl ⟨fault, rfl⟩, rfl⟩
  | ok out =>
    have hout : out.Valid := ht.valid_apply hw happly
    refine ⟨Or.inr ⟨out, rfl, hout⟩, ?_⟩
    dsimp only
    rw [hout]
    rfl

theorem apply_keeps_valid_loop :
    let w : Wave ℚ := ⟨10, 6, 13⟩
    let ps : Params := [("CLKOUT0_PHASE", .real (-450)), ("CLKOUT0_DUTY_CYCLE", .real 0.25),
      ("CLKFBOUT_MULT", .int 8)]
    w.Valid ∧ (pll 0).apply w ps = .ok ⟨5 / 4, 15 / 16, 5 / 4⟩ ∧
      (pll 0).checked w ps = .ok ⟨5 / 4, 15 / 16, 5 / 4⟩ := by
  intro w ps
  have hw : w.Valid := by decide +kernel
  have happly : (pll 0).apply w ps = .ok ⟨5 / 4, 15 / 16, 5 / 4⟩ := by decide +kernel
  refine ⟨hw, happly, ?_⟩
  rw [(apply_keeps_valid (.pll 0) hw ps).2, happly]
  rfl

end Transform
end ClockTree
