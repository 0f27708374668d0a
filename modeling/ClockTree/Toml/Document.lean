import ClockTree.Toml.Value

/-!
# Building tables

Keys and headers create the tables on their way. A key is given once and a header opens a table
once. A dotted key goes through tables that no header opened and through the last table of a
repeated header, but the table that takes its last name is one that dotted keys created.
-/
namespace ClockTree.Toml.Entries

def changeLast {α : Type} (f : α → Option α) : List α → Option (List α)
  | [] => none
  | [a] => (f a).map fun a => [a]
  | a :: as => (changeLast f as).map (a :: ·)

/-- Adds a value under a dotted key; the flag says whether the table takes a key of one name. -/
def assign (v : Value) : List String → Bool → Entries → Option Entries
  | [], _, _ => none
  | [k], takes, es => if takes && (es.get? k).isNone then some (es ++ [(k, v)]) else none
  | k :: ks, _, es => match es.get? k with
    | none => (assign v ks true []).map fun sub => es ++ [(k, .table .dotted sub)]
    | some (.table .dotted sub) =>
      (assign v ks true sub).map fun sub => es.put k (.table .dotted sub)
    | some (.table .implied sub) =>
      (assign v ks false sub).map fun sub => es.put k (.table .implied sub)
    | some (.rows tables) =>
      (changeLast (assign v ks false) tables).map fun tables => es.put k (.rows tables)
    | some _ => none

/-- Changes the value at the end of a path of headers. Tables on the way are created; a repeated
header stands for its last table. -/
def changeAt (f : Option Value → Option Value) : List String → Entries → Option Entries
  | [], _ => none
  | [k], es => (f (es.get? k)).map fun v => es.put k v
  | k :: ks, es => match es.get? k with
    | none => (changeAt f ks []).map fun sub => es.put k (.table .implied sub)
    | some (.table form sub) =>
      if form = .closed then none
      else (changeAt f ks sub).map fun sub => es.put k (.table form sub)
    | some (.rows tables) => (changeLast (changeAt f ks) tables).map fun ts => es.put k (.rows ts)
    | some _ => none

def openTable : Option Value → Option Value
  | none => some (.table .header [])
  | some (.table .implied es) => some (.table .header es)
  | some _ => none

def openRow : Option Value → Option Value
  | none => some (.rows [[]])
  | some (.rows tables) => some (.rows (tables ++ [[]]))
  | some _ => none

def assignIn (v : Value) (key : List String) : Option Value → Option Value
  | some (.table form es) => (assign v key true es).map (.table form)
  | some (.rows tables) => (changeLast (assign v key true) tables).map .rows
  | _ => none

/-- Adds a value below the header that was opened last, or to the root if there is none. -/
def assignBelow (header key : List String) (v : Value) (es : Entries) : Option Entries :=
  if header.isEmpty then es.assign v key true else es.changeAt (assignIn v key) header

end ClockTree.Toml.Entries
