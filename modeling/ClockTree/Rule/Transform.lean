import ClockTree.Clock.Wave
import ClockTree.Netlist.Parameter

/-!
# Transforms of waves

A transform says which wave leaves a cell on an output when a given wave arrives, depending on the
parameters of the cell. Any function will do. The transforms of the built-in cells are computed over
any type of times, and those of the rules over binary floating point.
-/
namespace ClockTree
open Number

structure Transform.Over (R : Type) where
  apply : Wave R → Params → Except ParamFault (Wave R)

abbrev Transform := Transform.Over Float

namespace Wave
variable {R : Type} [Scalar R]

/-- A divided wave rises with its source and is high for half of the new period; an inverted one
rises half a period later. -/
def divide (w : Wave R) (divisor : R) (inverted : Bool) : Wave R :=
  if Scalar.same divisor Scalar.one && !inverted then w
  else
    let period := w.period * divisor
    let half := period / Scalar.two
    let start := if inverted then w.rise + half else w.rise
    let rise := Scalar.modulo start period
    ⟨period, rise, rise + half⟩

def invert (w : Wave R) : Wave R :=
  let rise := Scalar.modulo w.fall w.period
  ⟨w.period, rise, rise + (w.period - (w.fall - w.rise))⟩

end Wave

namespace Transform

def isBypass (v : Parameter) : Bool := v.toText?.map String.toUpper == some "BYPASS"

def divisor (param : Option String) (fixed : Option Nat) (ps : Params) : Except ParamFault Int :=
  let own : Except ParamFault (Option Int) := match param with
    | none => .ok none
    | some name => match ps.get? name with
      | none => .ok none
      | some v => if isBypass v then .ok (some 1) else ps.positive name
  match own, fixed with
  | .error e, _ => .error e
  | .ok (some n), _ => .ok n
  | .ok none, some 0 => .error (.invalid "divisor" "0" Requirement.positive)
  | .ok none, some n => .ok n
  | .ok none, none => .error (.missing (param.getD "divisor"))

def eitherReal (ps : Params) (first second : String) : Except ParamFault (Option Float) := do
  match ← ps.real first with
  | some x => .ok (some x)
  | none => ps.real second

variable {R : Type} [Scalar R]

/-- The wave on an output of a phase-locked loop. The period is the source period times the input
divider and the output divider, over the multiplier; the phase in degrees moves the rising edge, and
the duty cycle gives the high time. The fractional variants of the multiplier and of the output
divider take precedence. -/
def loopOutput (output : Nat) (w : Wave R) (ps : Params) : Except ParamFault (Wave R) := do
  let name := "CLKOUT" ++ toString output
  let multiplier := (← eitherReal ps "CLKFBOUT_MULT_F" "CLKFBOUT_MULT").getD 5
  let mult : R := Scalar.ofFloat multiplier
  if Scalar.atMost mult Scalar.zero then
    throw (.invalid "CLKFBOUT_MULT" (display multiplier) Requirement.positive)
  let inputDivider : R := Scalar.ofInt ((← ps.positive "DIVCLK_DIVIDE").getD 1)
  let divider := (← eitherReal ps (name ++ "_DIVIDE_F") (name ++ "_DIVIDE")).getD 1
  let outputDivider : R := Scalar.ofFloat divider
  if Scalar.atMost outputDivider Scalar.zero then
    throw (.invalid (name ++ "_DIVIDE") (display divider) Requirement.positive)
  let duty := (← ps.real (name ++ "_DUTY_CYCLE")).getD 0.5
  let share : R := Scalar.ofFloat duty
  if !(Scalar.positive share && Scalar.less share Scalar.one) then
    throw (.invalid (name ++ "_DUTY_CYCLE") (display duty) Requirement.fraction)
  let phase : R := Scalar.ofFloat ((← ps.real (name ++ "_PHASE")).getD 0)
  let period := w.period * inputDivider * outputDivider / mult
  let rise := Scalar.modulo (period * phase / Scalar.ofInt 360) period
  return ⟨period, rise, rise + period * share⟩

def transparent : Over R := ⟨fun w _ => .ok w⟩

def inverter : Over R := ⟨fun w _ => .ok w.invert⟩

def pll (output : Nat) : Over R := ⟨loopOutput output⟩

/-- Divides by an integer parameter, or by a fixed ratio where the parameter is not set; a second
parameter may invert the output. -/
def divider (param invert : Option String) (fixed : Option Nat) : Over R where
  apply w ps := do
    let n ← divisor param fixed ps
    let inverted ← match invert with
      | some name => ps.flag name
      | none => .ok false
    return w.divide (Scalar.ofInt n) inverted

def byParameter (param : String) (invert : Option String) : Over R :=
  divider (some param) invert none

def byRatio (n : Nat) : Over R := divider none none (some n)

end Transform
end ClockTree
