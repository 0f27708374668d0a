import ClockTree.Proofs.Number.Sum
import ClockTree.Rule.Transform

/-!
# Waves in exact arithmetic

In exact arithmetic a wave is given by its period, by a time at which it rises and by its high time;
times of rise that are whole periods apart give the same wave. The valid waves are those with a high
time between zero and the period, and inversion puts the rise at the end of the high time.
-/
namespace ClockTree
open Number

namespace Number
variable {a b : ℚ}

theorem modulo_eq (a b : ℚ) : Scalar.modulo a b = a - b * ⌊a / b⌋ := rfl

theorem modulo_bounds (a : ℚ) (hb : 0 < b) : 0 ≤ Scalar.modulo a b ∧ Scalar.modulo a b < b := by
  have hlow := (le_div_iff₀ hb).mp (Int.floor_le (a / b))
  have hhigh := (div_lt_iff₀ hb).mp (Int.lt_floor_add_one (a / b))
  rw [modulo_eq]
  constructor <;> linarith

theorem modulo_of_lt (ha : 0 ≤ a) (hab : a < b) : Scalar.modulo a b = a := by
  have hb := ha.trans_lt hab
  have hfloor : ⌊a / b⌋ = 0 :=
    Int.floor_eq_zero_iff.mpr ⟨div_nonneg ha hb.le, (div_lt_one hb).mpr hab⟩
  rw [modulo_eq, hfloor, Int.cast_zero, mul_zero, sub_zero]

theorem modulo_add_mul (hb : b ≠ 0) (a : ℚ) (k : ℤ) :
    Scalar.modulo (a + b * k) b = Scalar.modulo a b := by
  rw [modulo_eq, modulo_eq, add_div, mul_div_cancel_left₀ _ hb, Int.floor_add_intCast, Int.cast_add]
  ring

end Number

namespace Wave

def lowTime {R : Type} [Scalar R] (w : Wave R) : R := w.period - w.highTime

theorem highTime_eq (w : Wave ℚ) : w.highTime = w.fall - w.rise := rfl

theorem lowTime_eq (w : Wave ℚ) : w.lowTime = w.period - w.highTime := rfl

/-- The wave that rises at a time, up to whole periods, and stays high for another. -/
def placed (period start high : ℚ) : Wave ℚ :=
  ⟨period, Scalar.modulo start period, Scalar.modulo start period + high⟩

section
variable {w : Wave ℚ} {period start high : ℚ}

@[simp] theorem placed_period : (placed period start high).period = period := rfl

@[simp] theorem placed_highTime : (placed period start high).highTime = high := by
  rw [highTime_eq, placed, add_sub_cancel_left]

theorem placed_add_turns (hperiod : period ≠ 0) (k : ℤ) :
    placed period (start + period * k) high = placed period start high := by
  rw [placed, modulo_add_mul hperiod, placed]

theorem valid_placed (start : ℚ) (hhigh : 0 < high) (hlow : high < period) :
    (placed period start high).Valid := by
  have hperiod := hhigh.trans hlow
  exact valid_rat_iff.mpr ⟨hperiod, modulo_bounds start hperiod, lt_add_of_pos_right _ hhigh,
    add_lt_add_right hlow _⟩

theorem Valid.highTime_bounds (h : w.Valid) : 0 < w.highTime ∧ w.highTime < w.period := by
  obtain ⟨-, -, hafter, hlast⟩ := valid_rat_iff.mp h
  rw [highTime_eq]
  constructor <;> linarith

theorem Valid.eq_placed (h : w.Valid) : w = placed w.period w.rise w.highTime := by
  obtain ⟨-, ⟨hzero, hbefore⟩, -⟩ := valid_rat_iff.mp h
  rw [placed, modulo_of_lt hzero hbefore, highTime_eq, add_sub_cancel]

theorem invert_eq (w : Wave ℚ) : w.invert = placed w.period w.fall w.lowTime := rfl

theorem Valid.invert (h : w.Valid) : w.invert.Valid := by
  obtain ⟨hpos, hlt⟩ := h.highTime_bounds
  exact valid_placed w.fall (sub_pos.mpr hlt) (sub_lt_self _ hpos)

theorem invert_placed (hperiod : period ≠ 0) :
    (placed period start high).invert = placed period (start + high) (period - high) := by
  have hturns : (placed period start high).fall =
      start + high + period * (-⌊start / period⌋ : ℤ) := by
    rw [placed, modulo_eq, Int.cast_neg]
    ring
  rw [invert_eq, placed_period, lowTime_eq, placed_highTime, placed_period, hturns,
    placed_add_turns hperiod]

end
end Wave

open Wave in
/-- A wave that is inverted twice comes back; in between its high time and its low time have changed
places. -/
theorem Transform.inverter_involutive {w : Wave ℚ} (hw : w.Valid) (ps qs : Params) :
    ∃ v, inverter.apply w ps = .ok v ∧ v.period = w.period ∧ v.highTime = w.lowTime ∧
      v.lowTime = w.highTime ∧ inverter.apply v qs = .ok w := by
  have hv : w.invert.highTime = w.lowTime := by rw [invert_eq, placed_highTime]
  -- the fall and the low time lead to the next rise
  have hsum : w.fall + w.lowTime = w.rise + w.period * (1 : ℤ) := by
    rw [lowTime_eq, highTime_eq, Int.cast_one]
    ring
  have hperiod := (valid_rat_iff.mp hw).1.ne'
  refine ⟨w.invert, rfl, rfl, hv, ?_, congrArg Except.ok ?_⟩
  · rw [lowTime_eq, hv, invert_eq, placed_period, lowTime_eq, sub_sub_cancel]
  · calc w.invert.invert
      _ = placed w.period (w.fall + w.lowTime) (w.period - w.lowTime) := invert_placed hperiod
      _ = placed w.period w.rise w.highTime := by
        rw [hsum, lowTime_eq, sub_sub_cancel, placed_add_turns hperiod]
      _ = w := hw.eq_placed.symm

open Wave in
theorem Transform.inverter_involutive_wrapped :
    let w : Wave ℚ := ⟨10, 6, 13⟩
    w.Valid ∧ inverter.apply w [] = .ok ⟨10, 3, 6⟩ ∧ inverter.apply ⟨10, 3, 6⟩ [] = .ok w ∧
      w.highTime = 7 ∧ w.lowTime = 3 := by
  intro w
  have hw : w.Valid := by decide +kernel
  have hfirst : inverter.apply w [] = .ok ⟨10, 3, 6⟩ := by decide +kernel
  obtain ⟨v, hv, -, -, -, hback⟩ := Transform.inverter_involutive hw [] []
  obtain rfl := Except.ok.inj (hfirst.symm.trans hv)
  exact ⟨hw, hfirst, hback, by decide +kernel, by decide +kernel⟩

end ClockTree
