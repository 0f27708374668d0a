import ClockTree.Number.Reader
import ClockTree.Number.Whole
import ClockTree.Toml.Value

/-!
# Numbers, dates and times

Each reader takes a value from the front of a text and returns the rest. Underscores may stand
between the digits of a number.
-/
namespace ClockTree.Toml
open Number

def isSpace (c : Char) : Bool := c == ' ' || c == '\t'

def moreDigits (p : Char → Bool) : List Char → List Char × List Char
  | '_' :: c :: cs =>
    if p c then let (ds, rest) := moreDigits p cs; (c :: ds, rest) else ([], '_' :: c :: cs)
  | c :: cs =>
    if p c then let (ds, rest) := moreDigits p cs; (c :: ds, rest) else ([], c :: cs)
  | [] => ([], [])

def digitRun? (p : Char → Bool) : List Char → Option (List Char × List Char)
  | c :: cs => if p c then let (ds, rest) := moreDigits p cs; some (c :: ds, rest) else none
  | [] => none

def sign : List Char → List Char × List Char
  | '+' :: cs => ([], cs)
  | '-' :: cs => (['-'], cs)
  | cs => ([], cs)

def decimal? (cs : List Char) : Option (List Char × List Char) :=
  let (s, cs) := sign cs
  match cs with
  | '0' :: rest => some (s ++ ['0'], rest)
  | cs => (digitRun? isDigit cs).map fun (ds, rest) => (s ++ ds, rest)

def fraction? : List Char → Option (List Char × List Char)
  | '.' :: cs => (digitRun? isDigit cs).map fun (ds, rest) => ('.' :: ds, rest)
  | _ => none

def exponent? : List Char → Option (List Char × List Char)
  | c :: cs =>
    if c = 'e' ∨ c = 'E' then
      let (s, cs) := sign cs
      (digitRun? isDigit cs).map fun (ds, rest) => ('e' :: s ++ ds, rest)
    else none
  | [] => none

def optionally (read : List Char → Option (List Char × List Char)) (cs : List Char) :
    List Char × List Char :=
  (read cs).getD ([], cs)

def float? (cs : List Char) : Option (Value × List Char) := do
  let (whole, rest) ← decimal? cs
  let (fraction, rest) := optionally fraction? rest
  let (exponent, rest) := optionally exponent? rest
  if fraction.isEmpty && exponent.isEmpty then none
  else
    let x ← Number.read? (String.ofList (whole ++ fraction ++ exponent))
    if exact x = .infinite false then none else some (.real x, rest)

def nonFinite? (cs : List Char) : Option (Value × List Char) :=
  let (s, cs) := sign cs
  match cs with
  | 'i' :: 'n' :: 'f' :: rest => some (.real (Exact.toFloat (.infinite (!s.isEmpty))), rest)
  | 'n' :: 'a' :: 'n' :: rest => some (.real (Exact.toFloat .nan), rest)
  | _ => none

def digitIn? (base : Nat) (c : Char) : Option Nat :=
  let d :=
    if 'a' ≤ c ∧ c ≤ 'f' then some (c.toNat - 'a'.toNat + 10)
    else if 'A' ≤ c ∧ c ≤ 'F' then some (c.toNat - 'A'.toNat + 10)
    else digit? c
  d.filter (· < base)

def based? (base : Nat) (cs : List Char) : Option (Value × List Char) := do
  let (ds, rest) ← digitRun? (fun c => (digitIn? base c).isSome) cs
  let n := digitsValue base (ds.filterMap (digitIn? base))
  if (n : Int) ≤ maxInt64 then some (.int n, rest) else none

def integer? (cs : List Char) : Option (Value × List Char) :=
  match cs with
  | '0' :: 'x' :: rest => based? 16 rest
  | '0' :: 'o' :: rest => based? 8 rest
  | '0' :: 'b' :: rest => based? 2 rest
  | cs => do
    let (ds, rest) ← decimal? cs
    some (.int (← readInt64? (String.ofList ds)), rest)

def two? (lo hi : Nat) : List Char → Option (Nat × List Char)
  | a :: b :: cs => do
    let n := 10 * (← digit? a) + (← digit? b)
    if lo ≤ n ∧ n ≤ hi then some (n, cs) else none
  | _ => none

def only? (c : Char) : List Char → Option (List Char)
  | d :: cs => if c = d then some cs else none
  | [] => none

def daysInMonth (year month : Nat) : Nat :=
  if month = 2 then if year % 4 = 0 ∧ (year % 100 ≠ 0 ∨ year % 400 = 0) then 29 else 28
  else if month ∈ [4, 6, 9, 11] then 30
  else 31

def date? (cs : List Char) : Option (List Char) := do
  let (century, cs) ← two? 0 99 cs
  let (year, cs) ← two? 0 99 cs
  let (month, cs) ← two? 1 12 (← only? '-' cs)
  let (day, cs) ← two? 1 31 (← only? '-' cs)
  if day ≤ daysInMonth (100 * century + year) month then some cs else none

def time? (cs : List Char) : Option (List Char) := do
  let (_, cs) ← two? 0 23 cs
  let (_, cs) ← two? 0 59 (← only? ':' cs)
  let (_, cs) ← two? 0 60 (← only? ':' cs)
  match cs with
  | '.' :: c :: rest => if isDigit c then some (rest.dropWhile isDigit) else some cs
  | cs => some cs

def zone? : List Char → Option (List Char)
  | c :: cs =>
    if c = 'Z' ∨ c = 'z' then some cs
    else if c = '+' ∨ c = '-' then do
      let (_, cs) ← two? 0 23 cs
      let (_, cs) ← two? 0 59 (← only? ':' cs)
      some cs
    else none
  | [] => none

def timeOfDate? : List Char → Option (List Char)
  | c :: cs =>
    if c = 'T' ∨ c = 't' ∨ c = ' ' then do
      let rest ← time? cs
      some ((zone? rest).getD rest)
    else none
  | [] => none

def moment? (cs : List Char) : Option (Value × List Char) :=
  match date? cs with
  | some rest => some (.moment, (timeOfDate? rest).getD rest)
  | none => (time? cs).map (.moment, ·)

def keyword? : List Char → Option (Value × List Char)
  | 't' :: 'r' :: 'u' :: 'e' :: rest => some (.bool true, rest)
  | 'f' :: 'a' :: 'l' :: 's' :: 'e' :: rest => some (.bool false, rest)
  | _ => none

def scalar? (cs : List Char) : Option (Value × List Char) :=
  keyword? cs <|> moment? cs <|> float? cs <|> nonFinite? cs <|> integer? cs

end ClockTree.Toml
