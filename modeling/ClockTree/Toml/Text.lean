import ClockTree.Toml.Scalar

/-!
# Quoted texts and keys

A text stands between double quotes, where a backslash escapes, or between single quotes, where
nothing does. Three quotes open a text on several lines.
-/
namespace ClockTree.Toml

structure Quoting where
  quote : Char
  escapes : Bool
  multiline : Bool
deriving DecidableEq, Repr

def isPlain (c : Char) : Bool := c == '\t' || (0x20 ≤ c.toNat && c.toNat != 0x7F)

def startsLine : List Char → Bool
  | '\n' :: _ => true
  | '\r' :: '\n' :: _ => true
  | _ => false

def dropLineEnd : List Char → List Char
  | '\n' :: cs => cs
  | '\r' :: '\n' :: cs => cs
  | cs => cs

def escape? : Char → Option Char
  | 'b' => some '\x08'
  | 't' => some '\t'
  | 'n' => some '\n'
  | 'f' => some '\x0c'
  | 'r' => some '\r'
  | '"' => some '"'
  | '\\' => some '\\'
  | _ => none

def escapeLength? : Char → Option Nat
  | 'u' => some 4
  | 'U' => some 8
  | _ => none

def scalarChar? (n : Nat) : Option Char := if n.isValidChar then some (Char.ofNat n) else none

inductive Reading where
  | plain
  | escaped
  /-- It is one of so many hexadecimal digits left, after digits with this value. -/
  | numbered (left value : Nat)
  | trimming

def Reading.trims : Reading → Bool
  | .trimming => true
  | _ => false

def closing (q : Char) : List Char → List Char × List Char
  | a :: b :: cs =>
    if a = q then if b = q then ([q, q], cs) else ([q], b :: cs) else ([], a :: b :: cs)
  | [a] => if a = q then ([q], []) else ([], [a])
  | [] => ([], [])

def startsPair (q : Char) : List Char → Bool
  | a :: b :: _ => a == q && b == q
  | _ => false

def body? (t : Quoting) : Reading → List Char → Option (List Char × List Char)
  | _, [] => none
  | .escaped, c :: cs =>
    match escapeLength? c with
    | some n => body? t (.numbered n 0) cs
    | none => match escape? c with
      | some d => (body? t .plain cs).map fun (text, rest) => (d :: text, rest)
      | none =>
        if t.multiline && startsLine ((c :: cs).dropWhile isSpace) then body? t .trimming cs
        else none
  | .numbered left value, c :: cs =>
    match digitIn? 16 c with
    | none => none
    | some d =>
      let value := 16 * value + d
      if 1 < left then body? t (.numbered (left - 1) value) cs
      else do
        let e ← scalarChar? value
        let (text, rest) ← body? t .plain cs
        some (e :: text, rest)
  | reading, c :: cs =>
    if reading.trims && (isSpace c || startsLine (c :: cs)) then body? t .trimming cs
    else if c = t.quote && !t.multiline then some ([], cs)
    else if c = t.quote && startsPair t.quote cs then some (closing t.quote (cs.drop 2))
    else if c = '\\' && t.escapes then body? t .escaped cs
    else if t.multiline && c = '\r' && cs.head? == some '\n' then body? t .plain cs
    else if isPlain c || (t.multiline && c = '\n') then
      (body? t .plain cs).map fun (text, rest) => (c :: text, rest)
    else none

def quoting? : List Char → Option (Quoting × List Char)
  | '"' :: '"' :: '"' :: cs => some (⟨'"', true, true⟩, cs)
  | '"' :: cs => some (⟨'"', true, false⟩, cs)
  | '\x27' :: '\x27' :: '\x27' :: cs => some (⟨'\x27', false, true⟩, cs)
  | '\x27' :: cs => some (⟨'\x27', false, false⟩, cs)
  | _ => none

def text? (cs : List Char) : Option (String × List Char) := do
  let (t, cs) ← quoting? cs
  let (text, rest) ← body? t .plain (if t.multiline then dropLineEnd cs else cs)
  some (String.ofList text, rest)

def isKeyChar (c : Char) : Bool := c.isAlphanum || c == '-' || c == '_'

def keyPart? (cs : List Char) : Option (String × List Char) :=
  let quoted (t : Quoting) (cs : List Char) : Option (String × List Char) :=
    (body? t .plain cs).map fun (text, rest) => (String.ofList text, rest)
  match cs with
  | '"' :: cs => quoted ⟨'"', true, false⟩ cs
  | '\x27' :: cs => quoted ⟨'\x27', false, false⟩ cs
  | cs =>
    if (cs.takeWhile isKeyChar).isEmpty then none
    else some (String.ofList (cs.takeWhile isKeyChar), cs.dropWhile isKeyChar)

def skipSpace (cs : List Char) : List Char := cs.dropWhile isSpace

def path? : Nat → List Char → Option (List String × List Char)
  | 0, _ => none
  | fuel + 1, cs => do
    let (part, rest) ← keyPart? (skipSpace cs)
    match skipSpace rest with
    | '.' :: rest => do
      let (parts, rest) ← path? fuel rest
      some (part :: parts, rest)
    | rest => some ([part], rest)

def nestingLimit : Nat := 79

def key? (cs : List Char) : Option (List String × List Char) :=
  (path? cs.length cs).filter fun (parts, _) => parts.length ≤ nestingLimit

end ClockTree.Toml
