import ClockTree.Json.Numeral

/-!
# Documents that conform to a schema

A schema says which shape a value must have. `Schema.conform?` brings a value into the canonical
form of its schema: members of a record in the order of its fields, each present, unknown members
left out. What a record ignores is not judged at all. Values nest at most 127 levels deep.
-/
namespace ClockTree.Json

inductive Missing where
  | refused
  | absent
  | is (v : Json)

inductive Schema where
  | text
  | natural (bound : Nat)
  | integer
  | real
  | any
  | list (item : Schema)
  | map (item : Schema)
  | optional (inner : Schema)
  /-- An object with these fields, or an array of their values in order. A field may have a second
  name. -/
  | record (fields : List ((String × Option String) × Missing × Schema))
  | variant (cases : List (String × Option Schema))

/-- Puts a member into a list sorted by key, in place of one with the same key. -/
def insertSorted {α : Type} (k : String) (v : α) : List (String × α) → List (String × α)
  | [] => [(k, v)]
  | (k', v') :: ms =>
    if k < k' then (k, v) :: (k', v') :: ms
    else if k = k' then (k, v) :: ms
    else (k', v') :: insertSorted k v ms

def sortMembers {α : Type} (ms : List (String × α)) : List (String × α) :=
  ms.foldl (fun acc (k, v) => insertSorted k v acc) []

def enter? (room : Nat) : Option Nat := if room ≤ 1 then none else some (room - 1)

def documentRoom : Nat := 128

namespace Raw

mutual
def any? (room : Nat) : Raw → Option Json
  | .null => some .null
  | .bool b => some (.bool b)
  | .num n => n.value?
  | .str s => s.map .str
  | .arr items => do
    let room ← enter? room
    (anyItems? room items).map .arr
  | .obj members => do
    let room ← enter? room
    (anyMembers? room members).map fun ms => .obj (sortMembers ms)

def anyItems? (room : Nat) : List Raw → Option (List Json)
  | [] => some []
  | v :: vs => do some ((← any? room v) :: (← anyItems? room vs))

def anyMembers? (room : Nat) : List (Option String × Raw) → Option (List (String × Json))
  | [] => some []
  | (k, v) :: ms => do some ((← k, ← any? room v) :: (← anyMembers? room ms))
end

/-- The member of a record with one of two names. A name given twice refuses the record. -/
def member? (names : String × Option String) (members : List (String × Raw)) :
    Option (Option Raw) :=
  match members.filter fun (k, _) => k == names.1 || names.2 == some k with
  | [] => some none
  | [(_, v)] => some (some v)
  | _ => none

def keyed? (members : List (Option String × Raw)) : Option (List (String × Raw)) :=
  members.mapM fun (k, v) => k.map (·, v)

end Raw

namespace Schema

mutual
/-- The canonical form of a value, if it conforms to the schema; `room` bounds its depth. -/
def conform? (room : Nat) (raw : Raw) : Schema → Option Json
  | .text => match raw with
    | .str s => s.map .str
    | _ => none
  | .natural bound => match raw with
    | .num n => match n.value? with
      | some (.int k) => if 0 ≤ k ∧ k ≤ bound then some (.int k) else none
      | _ => none
    | _ => none
  | .integer => match raw with
    | .num n => match n.value? with
      | some (.int k) => if k ≤ Number.maxInt64 then some (.int k) else none
      | _ => none
    | _ => none
  | .real => match raw with
    | .num n => match n.value? with
      | some (.int k) => some (.real (Float.ofInt k))
      | some (.real x) => some (.real x)
      | _ => none
    | _ => none
  | .any => raw.any? room
  | .list item => match raw with
    | .arr items => do
      let room ← enter? room
      (items.mapM fun v => conform? room v item).map .arr
    | _ => none
  | .map item => match raw with
    | .obj members => do
      let room ← enter? room
      let members ← Raw.keyed? members
      let values ← members.mapM fun (k, v) => (conform? room v item).map (k, ·)
      some (.obj (sortMembers values))
    | _ => none
  | .optional inner => match raw with
    | .null => some .null
    | raw => conform? room raw inner
  | .record fields => match raw with
    | .obj members => do
      let room ← enter? room
      let members ← Raw.keyed? members
      (conformMembers? room members fields).map .obj
    | .arr items => do
      let room ← enter? room
      (conformItems? room items fields).map .obj
    | _ => none
  | .variant cases => match raw with
    | .str (some name) => conformName? name cases
    | .obj [(some name, v)] => do
      let room ← enter? room
      conformCase? room name v cases
    | _ => none

def conformMembers? (room : Nat) (members : List (String × Raw)) :
    List ((String × Option String) × Missing × Schema) → Option (List (String × Json))
  | [] => some []
  | (names, missing, s) :: fields => do
    let v ← match ← Raw.member? names members, missing with
      | some v, _ => conform? room v s
      | none, .refused => none
      | none, .absent => some .null
      | none, .is v => some v
    some ((names.1, v) :: (← conformMembers? room members fields))

/-- The fields of a record that is written as an array. Nothing may follow the last of them. -/
def conformItems? (room : Nat) (items : List Raw) :
    List ((String × Option String) × Missing × Schema) → Option (List (String × Json))
  | [] => if items.isEmpty then some [] else none
  | (names, missing, s) :: fields => do
    let v ← match items, missing with
      | v :: _, _ => conform? room v s
      | [], .is v => some v
      | [], _ => none
    some ((names.1, v) :: (← conformItems? room items.tail fields))

def conformName? (name : String) : List (String × Option Schema) → Option Json
  | [] => none
  | (case, s) :: cases =>
    if case = name then match s with
      | none => some (.str name)
      | some _ => none
    else conformName? name cases

def conformCase? (room : Nat) (name : String) (raw : Raw) :
    List (String × Option Schema) → Option Json
  | [] => none
  | (case, s) :: cases =>
    if case = name then match s, raw with
      | none, .null => some (.str name)
      | none, _ => none
      | some s, raw => (conform? room raw s).map fun v => .obj [(name, v)]
    else conformCase? room name raw cases
end

def read? (s : Schema) (text : String) : Option Json := do
  s.conform? documentRoom (← Raw.read? text)

end Schema

/-! Reading canonical values: what is not there is empty. -/

def member (v : Json) (name : String) : Json :=
  match v with
  | .obj members => ((members.find? fun (k, _) => k == name).map (·.2)).getD .null
  | _ => .null

def members : Json → List (String × Json)
  | .obj ms => ms
  | _ => []

def items : Json → List Json
  | .arr vs => vs
  | _ => []

def text : Json → String
  | .str s => s
  | _ => ""

def text? : Json → Option String
  | .str s => some s
  | _ => none

def toInt : Json → Int
  | .int n => n
  | _ => 0

end ClockTree.Json
