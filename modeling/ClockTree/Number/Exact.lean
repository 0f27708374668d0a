/-!
# The exact value of a binary floating point number

A finite number is `±m · 2 ^ q` for naturals `m` and an integer `q`. `exact` reads that form off the
bits and `Exact.toFloat` builds the number back, so that rounding, remainders and decimal texts can
be computed in exact arithmetic.
-/
namespace ClockTree.Number

inductive Exact where
  | nan
  | infinite (negative : Bool)
  | finite (negative : Bool) (m : Nat) (q : Int)
deriving DecidableEq, Repr

def leastExponent : Int := -1074

def exact (x : Float) : Exact :=
  let bits : Nat := x.toBits.toNat
  let negative := decide (1 <<< 63 ≤ bits)
  let exponent : Nat := (bits >>> 52) % 2048
  let fraction : Nat := bits % (1 <<< 52)
  if exponent = 2047 then
    if fraction = 0 then .infinite negative else .nan
  else if exponent = 0 then .finite negative fraction leastExponent
  else .finite negative ((1 <<< 52) + fraction) (exponent - 1075)

def bitLength (m : Nat) : Nat := if m = 0 then 0 else m.log2 + 1

/-- The number `±m · 2 ^ q`, for `m < 2 ^ 53` and `q` no less than the least exponent. The mantissa
is first shifted to fill 53 bits as far as the least exponent allows. -/
def ofParts (negative : Bool) (m : Nat) (q : Int) : Float :=
  let shift := min (53 - bitLength m) (q - leastExponent).toNat
  let m' := m <<< shift
  let q' := q - shift
  let magnitude :=
    if m' < 1 <<< 52 then m' else ((q' + 1075).toNat <<< 52) + (m' - (1 <<< 52))
  Float.ofBits (UInt64.ofNat ((if negative then 1 <<< 63 else 0) + magnitude))

def Exact.toFloat : Exact → Float
  | .nan => 0.0 / 0.0
  | .infinite negative => if negative then -(1.0 / 0.0) else 1.0 / 0.0
  | .finite negative m q => ofParts negative m q

end ClockTree.Number
