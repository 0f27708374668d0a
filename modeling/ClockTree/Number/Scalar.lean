import ClockTree.Number.Remainder

/-!
# The arithmetic of times

Clock waves are computed over any type with these operations: over binary floating point when a
design is processed, and over exact numbers when the transforms themselves are studied.
-/
namespace ClockTree.Number

class Scalar (R : Type) extends Add R, Sub R, Mul R, Div R where
  less : R → R → Bool
  same : R → R → Bool
  modulo : R → R → R
  ofInt : Int → R
  ofFloat : Float → R
  isFinite : R → Bool

namespace Scalar
variable {R : Type} [Scalar R]

def zero : R := ofInt 0
def one : R := ofInt 1
def two : R := ofInt 2

def atMost (a b : R) : Bool := less a b || same a b

def positive (a : R) : Bool := less zero a

end Scalar

instance : Scalar Float where
  less a b := a < b
  same a b := a == b
  modulo := Number.modulo
  ofInt := Float.ofInt
  ofFloat := id
  isFinite := Float.isFinite

end ClockTree.Number
