import ClockTree.Number.Layout
import ClockTree.Number.Reader
import ClockTree.Text.Blank

/-!
# Parameters of cells

A parameter is an integer of 64 bits, a real number or a text. The conversions say what it means
where another kind is wanted, and the checked readings refuse a value that has no such meaning.
-/
namespace ClockTree
open Number

inductive Parameter where
  | int (n : Int)
  | real (x : Float)
  | str (s : String)
deriving DecidableEq

namespace Parameter

def toInt? : Parameter → Option Int
  | .int n => some n
  | .real x => (exact x).toInt?.map (clamp minInt64 maxInt64)
  | .str s => readInt64? (Text.trim s)

def toFloat? : Parameter → Option Float
  | .int n => some (Float.ofInt n)
  | .real x => some x
  | .str s => Number.read? (Text.trim s)

def toText? : Parameter → Option String
  | .str s => some s
  | _ => none

def text : Parameter → String
  | .int n => toString n
  | .real x => display x
  | .str s => "\"" ++ s ++ "\""

end Parameter

namespace Requirement

def positive : String := "must be positive"
def integer : String := "must be an integer"
def number : String := "must be a number"
def boolean : String := "must be a boolean"
def fraction : String := "must lie strictly between 0 and 1"

end Requirement

inductive ParamFault where
  | missing (name : String)
  | invalid (name value reason : String)
deriving DecidableEq, Repr

def ParamFault.message : ParamFault → String
  | .missing name => "missing parameter " ++ name
  | .invalid name value reason => "parameter " ++ name ++ " = " ++ value ++ ": " ++ reason

abbrev Params := List (String × Parameter)

namespace Params

def get? (ps : Params) (name : String) : Option Parameter := ps.lookup name

def set : Params → String → Parameter → Params
  | [], name, v => [(name, v)]
  | (n, old) :: ps, name, v =>
    if n = name then (n, v) :: ps else (n, old) :: set ps name v

def positive (ps : Params) (name : String) : Except ParamFault (Option Int) :=
  match ps.get? name with
  | none => .ok none
  | some v => match v.toInt? with
    | none => .error (.invalid name v.text Requirement.integer)
    | some n => if 0 < n then .ok (some n) else .error (.invalid name v.text Requirement.positive)

def real (ps : Params) (name : String) : Except ParamFault (Option Float) :=
  match ps.get? name with
  | none => .ok none
  | some v => match v.toFloat? with
    | none => .error (.invalid name v.text Requirement.number)
    | some x => if x.isFinite then .ok (some x) else .error (.invalid name v.text Requirement.number)

def flag (ps : Params) (name : String) : Except ParamFault Bool :=
  match ps.get? name with
  | none => .ok false
  | some v => match v.toInt?, v.toText?.map String.toUpper with
    | some n, _ => .ok (n != 0)
    | none, some "TRUE" => .ok true
    | none, some "FALSE" => .ok false
    | none, _ => .error (.invalid name v.text Requirement.boolean)

end Params
end ClockTree
