import ClockTree.Number.Shortest

/-!
# Laying out a decimal as text

`Layout` holds what a format decides about a number whose digits are known. `plain` is the layout of
messages and tables, and `document` that of interchange documents.
-/
namespace ClockTree.Number

structure Layout where
  tie : Tie
  nan : String
  infinity : String
  negativeInfinity : String
  point : Bool
  /-- The exponents of the leading digit that are written without one; `none` stands for all. -/
  positional : Option (Int × Int)

/-- Shortest digits, a tie away from zero, never an exponent, no point after a whole number. -/
def plain : Layout := ⟨.outward, "NaN", "inf", "-inf", false, none⟩

/-- Shortest digits, a tie to the even one, with a point or an exponent; the exponent has a sign,
and what is not a finite number is written `null`. -/
def document : Layout := ⟨.even, "null", "null", "null", true, some (-5, 16)⟩

def positionalText (keepPoint : Bool) (digits : List Char) (point : Int) : List Char :=
  if point ≤ 0 then '0' :: '.' :: (List.replicate (-point).toNat '0' ++ digits)
  else if digits.length ≤ point.toNat then
    digits ++ List.replicate (point.toNat - digits.length) '0'
      ++ (if keepPoint then ['.', '0'] else [])
  else digits.take point.toNat ++ '.' :: digits.drop point.toNat

def scientificText (digits : List Char) (exponent : Int) : List Char :=
  let mantissa := match digits with
    | d :: r :: rest => d :: '.' :: r :: rest
    | ds => ds
  let sign := if exponent < 0 then '-' else '+'
  mantissa ++ 'e' :: sign :: (toString exponent.natAbs).toList

def Layout.magnitude (l : Layout) (d : Decimal) : List Char :=
  let digits := (toString d.digits).toList
  let point := digits.length + d.exponent
  match l.positional with
  | some (lo, hi) =>
    if lo ≤ point - 1 ∧ point - 1 < hi then positionalText l.point digits point
    else scientificText digits (point - 1)
  | none => positionalText l.point digits point

def Layout.text (l : Layout) (x : Float) : String :=
  match exact x with
  | .nan => l.nan
  | .infinite negative => if negative then l.negativeInfinity else l.infinity
  | .finite negative m q =>
    let body := if m = 0 then '0' :: (if l.point then ['.', '0'] else [])
      else l.magnitude (shortest l.tie m q)
    String.ofList (if negative then '-' :: body else body)

def display (x : Float) : String := plain.text x

end ClockTree.Number
