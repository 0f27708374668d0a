import ClockTree.Number.Exact

/-!
# Remainders of binary floating point numbers

`truncRemainder` is the exact remainder of truncating division: it is a multiple of the finer of the
two units and smaller than the divisor, so no rounding takes place. `modulo` moves it into
`[0, |b|)`.
-/
namespace ClockTree.Number

def truncRemainder (a b : Float) : Float :=
  match exact a, exact b with
  | .finite negative m q, .finite _ n r =>
    if n = 0 then Exact.nan.toFloat
    else
      let unit := min q r
      ofParts negative ((m <<< (q - unit).toNat) % (n <<< (r - unit).toNat)) unit
  | .finite .., .infinite _ => a
  | _, _ => Exact.nan.toFloat

/-- The non-negative remainder: a negative remainder is moved up by `|b|` once. -/
def modulo (a b : Float) : Float :=
  let r := truncRemainder a b
  if r < 0 then r + b.abs else r

end ClockTree.Number
