import ClockTree.Number.Layout
import ClockTree.Number.Scalar
import ClockTree.Number.Whole

/-!
# Clock waves

A wave repeats with its period; within one period it rises once and falls once afterwards. Times are
in nanoseconds. A wave is valid when `0 < period`, `0 ≤ rise < period` and
`rise < fall < rise + period`.
-/
namespace ClockTree
open Number

structure Wave (R : Type) where
  period : R
  rise : R
  fall : R
deriving DecidableEq

inductive WaveFault (R : Type) where
  | period (p : R)
  | rise (r p : R)
  | fall (r f : R)
deriving DecidableEq

namespace Wave
variable {R : Type} [Scalar R]

def symmetric (period : R) : Wave R := ⟨period, Scalar.zero, period / Scalar.two⟩

def fault? (w : Wave R) : Option (WaveFault R) :=
  if !(Scalar.isFinite w.period && Scalar.positive w.period) then some (.period w.period)
  else if !(Scalar.isFinite w.rise && Scalar.atMost Scalar.zero w.rise
      && Scalar.less w.rise w.period) then some (.rise w.rise w.period)
  else if !(Scalar.isFinite w.fall && Scalar.less w.rise w.fall
      && Scalar.less w.fall (w.rise + w.period)) then some (.fall w.rise w.fall)
  else none

def Valid (w : Wave R) : Prop := w.fault? = none

instance (w : Wave R) : Decidable w.Valid := inferInstanceAs (Decidable (w.fault? = none))

def highTime (w : Wave R) : R := w.fall - w.rise

def dutyCycle (w : Wave R) : R := w.highTime / w.period

end Wave

def WaveFault.message : WaveFault Float → String
  | .period p => "period must be positive, got " ++ display p
  | .rise r p =>
    "rising edge " ++ display r ++ " must lie within [0, " ++ display p ++ ") for period "
      ++ display p
  | .fall r f =>
    "falling edge " ++ display f ++ " must lie after the rising edge " ++ display r
      ++ " and within one period"

/-- A period in whole picoseconds, a half away from zero, within 64 bits. -/
def picoseconds (period : Float) : Int := (exact (period * 1000)).round 0 maxWord64

end ClockTree
