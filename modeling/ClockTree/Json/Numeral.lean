import ClockTree.Json.Reader
import ClockTree.Json.Value

/-!
# The value of a written number

An integer within 64 bits keeps its value. Any other number is read as binary floating point: the
leading digits that fit in 64 bits make a whole number, which is scaled by a power of ten in one or
two steps. A number too large to be finite has no value.
-/
namespace ClockTree.Json.Numeral
open Number

/-- Appends digits to a number as long as it fits in 64 bits; the rest is returned. -/
def absorb (n : Nat) : List Nat → Nat × List Nat
  | [] => (n, [])
  | d :: ds => if 10 * n + d ≤ 0xFFFFFFFFFFFFFFFF then absorb (10 * n + d) ds else (n, d :: ds)

def powerOfTen (e : Nat) : Float := Float.ofScientific 1 false e

/-- `significand · 10 ^ e`, unless it is too large. No power of ten above `10 ^ 308` is used. -/
def scale? (significand : Nat) (e : Int) : Option Float :=
  let x := Float.ofNat significand
  if significand = 0 then some 0.0
  else if 308 < e then none
  else if 0 ≤ e then
    let y := x * powerOfTen e.toNat
    if y.isFinite then some y else none
  else if -308 ≤ e then some (x / powerOfTen (-e).toNat)
  else if -616 ≤ e then some (x / powerOfTen 308 / powerOfTen (-e - 308).toNat)
  else some 0.0

def writtenExponent? (n : Numeral) : Option Int :=
  match n.exponent with
  | none => some 0
  | some (negative, ds) =>
    let e := digitsValue 10 ds
    if e ≤ 0x7FFFFFFF then some (signed negative e) else none

def shrinks (n : Numeral) : Bool :=
  match n.exponent with
  | some (negative, _) => negative
  | none => false

/-- The floating point value. A larger exponent than 32 bits hold gives zero if it is negative or
the digits are zero, and no value otherwise. -/
def real? (n : Numeral) : Option Float :=
  let (significand, left) := absorb 0 n.whole
  let fraction := n.fraction.getD []
  let (significand, dropped) := absorb significand fraction
  let shift : Int := left.length - (fraction.length - dropped.length : Nat)
  let magnitude := match n.writtenExponent? with
    | some e => scale? significand (clamp (-0x80000000) 0x7FFFFFFF (shift + e))
    | none =>
      if significand = 0 ∨ n.shrinks then some 0.0 else none
  magnitude.map fun x => if n.negative then -x else x

def value? (n : Numeral) : Option Json :=
  let real := n.real?.map Json.real
  if n.fraction.isSome ∨ n.exponent.isSome then real
  else match absorb 0 n.whole with
    | (k, []) =>
      if n.negative then if 0 < k ∧ k ≤ 0x8000000000000000 then some (.int (-(k : Int))) else real
      else some (.int k)
    | _ => real

end ClockTree.Json.Numeral
