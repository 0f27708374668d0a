import ClockTree.Number.Exact

/-!
# Numbers with a set number of decimal places

`fixed` rounds the exact binary value to the given places, a half to the even neighbour. `trimmed`
drops the zeros that such a text ends in, and the sign of a zero.
-/
namespace ClockTree.Number

def halfEven (num den : Nat) : Nat :=
  let n := num / den
  let r := num % den
  if 2 * r < den then n else if den < 2 * r then n + 1 else n + n % 2

def scaledUnits (places m : Nat) (q : Int) : Nat :=
  halfEven ((m * Nat.pow 10 places) <<< q.toNat) (1 <<< (-q).toNat)

def pointText (places units : Nat) : List Char :=
  let digits := (toString units).toList
  let padded := List.replicate (places + 1 - digits.length) '0' ++ digits
  let whole := padded.take (padded.length - places)
  if places = 0 then whole else whole ++ '.' :: padded.drop (padded.length - places)

def fixed (places : Nat) (x : Float) : String :=
  match exact x with
  | .nan => "NaN"
  | .infinite negative => if negative then "-inf" else "inf"
  | .finite negative m q =>
    let body := pointText places (scaledUnits places m q)
    String.ofList (if negative then '-' :: body else body)

def dropEndWhile (p : Char → Bool) (cs : List Char) : List Char := (cs.reverse.dropWhile p).reverse

def trimPlaces (cs : List Char) : List Char :=
  if cs.contains '.' then dropEndWhile (· == '.') (dropEndWhile (· == '0') cs) else cs

/-- The number with at most `places` decimal places; a negative zero loses its sign. -/
def trimmed (places : Nat) (x : Float) : String :=
  let cs := trimPlaces (fixed places x).toList
  String.ofList (if cs = ['-', '0'] then ['0'] else cs)

end ClockTree.Number
