/-!
# Values of a configuration text

A table remembers how it came about, because that decides what may still be added to it.
-/
namespace ClockTree.Toml

inductive Form where
  | header
  /-- By the header of a table inside it. -/
  | implied
  | dotted
  /-- As a value between braces, which is complete. -/
  | closed
deriving DecidableEq, Repr

inductive Value where
  | text (s : String)
  | int (n : Int)
  | real (x : Float)
  | bool (b : Bool)
  | moment
  | array (items : List Value)
  | table (form : Form) (entries : List (String × Value))
  /-- The tables of repeated headers. -/
  | rows (tables : List (List (String × Value)))

abbrev Entries := List (String × Value)

namespace Entries

def get? (es : Entries) (key : String) : Option Value := es.lookup key

def put (key : String) (v : Value) : Entries → Entries
  | [] => [(key, v)]
  | (k, w) :: es => if k = key then (k, v) :: es else (k, w) :: put key v es

end Entries
end ClockTree.Toml
