import ClockTree.Number.Exact

/-!
# The fewest decimal digits that read back

A decimal reads back as `m · 2 ^ q` when it lies in the interval of reals that round to it, whose
ends belong to it exactly when `m` is even. The coarsest power of ten with a multiple in that
interval gives the fewest digits, and of those multiples the one nearest to the value is taken. Two
of them can be equally near; `Tie` says which one a format takes.
-/
namespace ClockTree.Number

structure Decimal where
  digits : Nat
  exponent : Int
deriving DecidableEq, Repr

/-- Which of two equally near neighbours on a grid is taken: the even one, or the one farther from
zero. -/
inductive Tie where
  | even
  | outward
deriving DecidableEq, Repr

def Tie.choose : Tie → Nat → Nat
  | .even, below => below + below % 2
  | .outward, below => below + 1

/-- The interval of reals that round to a number, in units of a quarter of its last place. -/
structure Rounding where
  low : Nat
  value : Nat
  high : Nat
  closed : Bool

/-- Below a power of two the numbers lie twice as dense, so the interval is shorter there. -/
def rounding (m : Nat) (q : Int) : Rounding where
  low := 4 * m - if m = 1 <<< 52 ∧ leastExponent < q then 1 else 2
  value := 4 * m
  high := 4 * m + 2
  closed := m % 2 = 0

def Rounding.covers (r : Rounding) (u g c : Nat) : Bool :=
  if r.closed then decide (r.low * u ≤ c * g ∧ c * g ≤ r.high * u)
  else decide (r.low * u < c * g ∧ c * g < r.high * u)

def Rounding.nearest? (r : Rounding) (tie : Tie) (u g : Nat) : Option Nat :=
  let below := r.value * u / g
  let above := below + 1
  match r.covers u g below, r.covers u g above with
  | true, true =>
    let down := r.value * u - below * g
    let up := above * g - r.value * u
    some (if down < up then below else if up < down then above else tie.choose below)
  | true, false => some below
  | false, true => some above
  | false, false => none

/-- The first power of ten, from `t` downwards, with a multiple that reads back. -/
def Rounding.search (r : Rounding) (tie : Tie) (unit : Int) : Nat → Int → Decimal
  | 0, t => ⟨0, t⟩
  | fuel + 1, t =>
    let u := Nat.pow 10 (-t).toNat <<< unit.toNat
    let g := Nat.pow 10 t.toNat <<< (-unit).toNat
    match r.nearest? tie u g with
    | some c => ⟨c, t⟩
    | none => r.search tie unit fuel (t - 1)

/-- The fewest digits that read back as `m · 2 ^ q`, for `0 < m < 2 ^ 53`. The search starts at a
power of ten above the value, and a grid twenty places below it is finer than the interval. -/
def shortest (tie : Tie) (m : Nat) (q : Int) : Decimal :=
  (rounding m q).search tie (q - 2) 24 ((bitLength m + q) * 30103 / 100000 + 1)

end ClockTree.Number
