import ClockTree.Number.Exact

/-!
# Whole numbers: from floating point, and from text

Conversions to a bounded integer range clamp at its ends, and what is not a number becomes zero.
-/
namespace ClockTree.Number

def maxInt64 : Int := 0x7FFFFFFFFFFFFFFF
def minInt64 : Int := -0x8000000000000000
def maxWord64 : Int := 0xFFFFFFFFFFFFFFFF

def signed (negative : Bool) (n : Nat) : Int := if negative then -(n : Int) else n

def Exact.toInt? : Exact → Option Int
  | .finite negative m q =>
    if 0 ≤ q then some (signed negative (m <<< q.toNat))
    else if m % (1 <<< (-q).toNat) = 0 then some (signed negative (m >>> (-q).toNat))
    else none
  | _ => none

def halfUp (m k : Nat) : Nat := (2 * m + (1 <<< k)) >>> (k + 1)

def clamp (lo hi n : Int) : Int := max lo (min hi n)

def Exact.round (lo hi : Int) : Exact → Int
  | .nan => 0
  | .infinite negative => if negative then lo else hi
  | .finite negative m q =>
    clamp lo hi (signed negative (if 0 ≤ q then m <<< q.toNat else halfUp m (-q).toNat))

def digit? (c : Char) : Option Nat :=
  if '0' ≤ c ∧ c ≤ '9' then some (c.toNat - '0'.toNat) else none

def isDigit (c : Char) : Bool := (digit? c).isSome

def digitsValue (base : Nat) (digits : List Nat) : Nat :=
  digits.foldl (fun n d => base * n + d) 0

def readNat? (cs : List Char) : Option Nat :=
  if cs.isEmpty then none else (cs.mapM digit?).map (digitsValue 10)

def readInt64? (s : String) : Option Int :=
  let read (negative : Bool) (cs : List Char) : Option Int := do
    let n := signed negative (← readNat? cs)
    if minInt64 ≤ n ∧ n ≤ maxInt64 then some n else none
  match s.toList with
  | '+' :: cs => read false cs
  | '-' :: cs => read true cs
  | cs => read false cs

end ClockTree.Number
