import ClockTree.Number.Layout
import ClockTree.Number.Reader
import ClockTree.Text.Blank

/-!
# Frequencies

A frequency is held in hertz. Its text has the largest of the units `GHz`, `MHz`, `KHz` and `Hz`
that it is not smaller than; a text is read with any of these units in any case, or with none.
-/
namespace ClockTree
open Number

structure Frequency where
  hertz : Float
deriving DecidableEq

structure FrequencyFault where
  input : String
deriving DecidableEq, Repr

def FrequencyFault.message (e : FrequencyFault) : String := "invalid frequency: '" ++ e.input ++ "'"

namespace Frequency

/-- The frequency of a clock with this period in nanoseconds; zero unless the period is positive. -/
def ofPeriod (period : Float) : Frequency := ⟨if 0 < period then 1e9 / period else 0⟩

def megahertz (f : Frequency) : Float := f.hertz / 1e6

def period? (f : Frequency) : Option Float := if 0 < f.hertz then some (1e9 / f.hertz) else none

def text (f : Frequency) : String :=
  if f.hertz ≥ 1e9 then display (f.hertz / 1e9) ++ "GHz"
  else if f.hertz ≥ 1e6 then display (f.hertz / 1e6) ++ "MHz"
  else if f.hertz ≥ 1e3 then display (f.hertz / 1e3) ++ "KHz"
  else display f.hertz ++ "Hz"

def describe (f : Frequency) : String := "Frequency(" ++ f.text ++ ")"

def units : List (List Char × Float) :=
  [("ghz".toList, 1e9), ("mhz".toList, 1e6), ("khz".toList, 1e3), ("hz".toList, 1)]

def beforeEnding? (ending cs : List Char) : Option (List Char) :=
  if ending.isSuffixOf cs then some (cs.take (cs.length - ending.length)) else none

def read (s : String) : Except FrequencyFault Frequency :=
  let input := Text.trim s
  let lower := input.toList.map Char.toLower
  let (number, scale) := (units.findSome? fun (unit, scale) =>
    (beforeEnding? unit lower).map (·, scale)).getD (lower, 1)
  match read? (Text.trim (String.ofList number)) with
  | some x => if x.isFinite && !(x < 0) then .ok ⟨x * scale⟩ else .error ⟨input⟩
  | none => .error ⟨input⟩

end Frequency
end ClockTree
