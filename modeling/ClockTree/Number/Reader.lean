import ClockTree.Number.Exact
import ClockTree.Number.Whole

/-!
# Reading decimal numbers

A number is an optional sign followed by `inf`, `infinity` or `nan` in any case, or by digits with
an optional point and an optional exponent; the digits may be missing on one side of the point. The
value is the binary64 number nearest to the decimal, a half to the even neighbour.
-/
namespace ClockTree.Number

/-- The number nearest to `mantissa · 10 ^ exponent`. Beyond 330 places on either side of the point
the result is infinite or zero whatever the digits are. -/
def nearest (mantissa : Nat) (exponent : Int) : Float :=
  let top := (toString mantissa).length + exponent
  if mantissa = 0 ∨ top < -330 then 0.0
  else if 330 < top then Exact.toFloat (.infinite false)
  else if exponent < 0 then Float.ofScientific mantissa true exponent.natAbs
  else Float.ofScientific mantissa false exponent.natAbs

def spanDigits (cs : List Char) : List Nat × List Char :=
  (cs.takeWhile isDigit |>.filterMap digit?, cs.dropWhile isDigit)

def readExponent? : List Char → Option Int
  | [] => some 0
  | c :: cs =>
    if c = 'e' ∨ c = 'E' then
      match cs with
      | '+' :: ds => (readNat? ds).map Int.ofNat
      | '-' :: ds => (readNat? ds).map fun n => -(n : Int)
      | ds => (readNat? ds).map Int.ofNat
    else none

def readMagnitude? (cs : List Char) : Option Float :=
  match String.ofList (cs.map Char.toLower) with
  | "inf" | "infinity" => some (Exact.toFloat (.infinite false))
  | "nan" => some (Exact.toFloat .nan)
  | _ =>
    let (whole, rest) := spanDigits cs
    let (fraction, rest) := match rest with
      | '.' :: rest => spanDigits rest
      | rest => ([], rest)
    if whole.isEmpty ∧ fraction.isEmpty then none
    else (readExponent? rest).map fun e =>
      nearest (digitsValue 10 (whole ++ fraction)) (e - fraction.length)

def read? (s : String) : Option Float :=
  match s.toList with
  | '+' :: cs => readMagnitude? cs
  | '-' :: cs => (readMagnitude? cs).map Float.neg
  | cs => readMagnitude? cs

end ClockTree.Number
