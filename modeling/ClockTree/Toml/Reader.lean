import ClockTree.Toml.Document
import ClockTree.Toml.Text

/-!
# Reading configuration texts

A text is a sequence of lines: a key with its value, a header, or nothing. Each may end in a
comment.
-/
namespace ClockTree.Toml

def skipFiller (comment : Bool) : List Char → List Char
  | [] => []
  | '\r' :: '\n' :: cs => skipFiller false cs
  | c :: cs =>
    if c = '\n' then skipFiller false cs
    else if comment then if isPlain c then skipFiller true cs else c :: cs
    else if isSpace c then skipFiller false cs
    else if c = '#' then skipFiller true cs
    else c :: cs

mutual
def value? : Nat → Nat → List Char → Option (Value × List Char)
  | 0, _, _ => none
  | fuel + 1, room, cs =>
    match cs with
    | '[' :: cs => if room = 0 then none else match skipFiller false cs with
      | ']' :: rest => some (.array [], rest)
      | cs => do
        let (items, rest) ← items? fuel (room - 1) cs
        some (.array items, rest)
    | '\x7b' :: cs => if room = 0 then none else match skipSpace cs with
      | '\x7d' :: rest => some (.table .closed [], rest)
      | cs => do
        let (entries, rest) ← entries? fuel (room - 1) [] cs
        some (.table .closed entries, rest)
    | cs => match quoting? cs with
      | some _ => (text? cs).map fun (s, rest) => (.text s, rest)
      | none => scalar? cs

def items? : Nat → Nat → List Char → Option (List Value × List Char)
  | 0, _, _ => none
  | fuel + 1, room, cs => do
    let (v, rest) ← value? fuel room cs
    match skipFiller false rest with
    | ']' :: rest => some ([v], rest)
    | ',' :: rest => match skipFiller false rest with
      | ']' :: rest => some ([v], rest)
      | rest => do
        let (vs, rest) ← items? fuel room rest
        some (v :: vs, rest)
    | _ => none

def entries? : Nat → Nat → Entries → List Char → Option (Entries × List Char)
  | 0, _, _, _ => none
  | fuel + 1, room, es, cs => do
    let (key, rest) ← key? cs
    let (v, rest) ← value? fuel room (skipSpace (← only? '=' rest))
    let es ← es.assign v key true
    match skipSpace rest with
    | '\x7d' :: rest => some (es, rest)
    | ',' :: rest => entries? fuel room es rest
    | _ => none
end

def lineEnd? (cs : List Char) : Option (List Char) :=
  let cs := match skipSpace cs with
    | '#' :: cs => cs.dropWhile isPlain
    | cs => cs
  match cs with
  | [] => some []
  | '\n' :: cs => some cs
  | '\r' :: '\n' :: cs => some cs
  | _ => none

inductive Line where
  | nothing
  | entry (key : List String) (v : Value)
  | table (header : List String)
  | row (header : List String)

def content? (cs : List Char) : Option (Line × List Char) :=
  match cs with
  | '[' :: '[' :: cs => do
    let (header, rest) ← key? cs
    some (.row header, ← only? ']' (← only? ']' rest))
  | '[' :: cs => do
    let (header, rest) ← key? cs
    some (.table header, ← only? ']' rest)
  | cs => do
    let (key, rest) ← key? cs
    let cs := skipSpace (← only? '=' rest)
    let (v, rest) ← value? (2 * cs.length + 1) nestingLimit cs
    some (.entry key v, rest)

def line? (cs : List Char) : Option (Line × List Char) :=
  match lineEnd? cs with
  | some rest => some (.nothing, rest)
  | none => do
    let (content, rest) ← content? (skipSpace cs)
    some (content, ← lineEnd? rest)

def lines? : Nat → List Char → Option (List Line)
  | _, [] => some []
  | 0, _ => none
  | fuel + 1, cs => do
    let (line, rest) ← line? cs
    some (line :: (← lines? fuel rest))

structure Building where
  root : Entries := []
  header : List String := []

def Building.add? (b : Building) : Line → Option Building
  | .nothing => some b
  | .entry key v => (b.root.assignBelow b.header key v).map fun root => { b with root }
  | .table header => (b.root.changeAt Entries.openTable header).map (⟨·, header⟩)
  | .row header => (b.root.changeAt Entries.openRow header).map (⟨·, header⟩)

def read? (s : String) : Option Entries := do
  let cs := match s.toList with
    | '\ufeff' :: cs => cs
    | cs => cs
  let b ← (← lines? cs.length cs).foldlM Building.add? {}
  some b.root

end ClockTree.Toml
