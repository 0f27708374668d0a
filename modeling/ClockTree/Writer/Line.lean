import ClockTree.Number.Fixed
import ClockTree.Script.Word
import ClockTree.Writer.Lookup

/-!
# Lines of written constraints

Each clock and each exception is written as one command. An exception whose references do not
resolve has no line; the text of the reference says why.
-/
namespace ClockTree.Writer
open Script Number

def selector (kind : ObjectKind) (names : List String) : String :=
  "[" ++ kind.command ++ " " ++ writeList names ++ "]"

def declarationLine (d : Design) (precision : Nat) (c : Clock) : String :=
  let kind : ObjectKind := if c.wires.all d.isOuterPort then .ports else .nets
  "create_clock -name " ++ writeWord c.name
    ++ " -period " ++ trimmed precision c.wave.period
    ++ " -waveform \x7b" ++ trimmed precision c.wave.rise ++ " " ++ trimmed precision c.wave.fall
    ++ "\x7d " ++ selector kind (d.paths c.wires)

def addObject (groups : List (ObjectKind × List String)) (o : Object) :
    List (ObjectKind × List String) :=
  match groups with
  | (kind, names) :: rest =>
    if kind = o.1 then
      if names.contains o.2 then groups else (kind, names ++ [o.2]) :: rest
    else (o.1, [o.2]) :: groups
  | [] => [(o.1, [o.2])]

def runs (objects : List Object) : List (ObjectKind × List String) :=
  (objects.foldl addObject []).reverse

def selectionText (v : View) (s : Selection) : Except String String := do
  let objects ← s.mapM fun q => match v.wireAt? q with
    | some found => .ok found
    | none => .error q.text
  match (runs objects.flatten).map fun (kind, names) => selector kind names with
  | [] => .error "an empty selection"
  | [one] => return one
  | many => return "[list " ++ " ".intercalate many ++ "]"

def endText (v : View) (option : String) : Option Selection → Except String String
  | none => .ok ""
  | some s => return " " ++ option ++ " " ++ (← selectionText v s)

def endsText (v : View) (e : Endpoints) : Except String String := do
  let start ← endText v "-from" e.start
  let through ← endText v "-through" e.through
  let stop ← endText v "-to" e.stop
  return start ++ through ++ stop

def groupText (v : View) (patterns : List String) : Except String String :=
  match v.groupNames? patterns with
  | some names => .ok (" -group " ++ writeList names)
  | none => .error (Query.text ⟨.clocks, patterns⟩)

def constraintLine (v : View) (precision : Nat) (e : TimingException) : Except String String :=
  match e with
  | .falsePath ends => return e.command ++ (← endsText v ends)
  | .maxDelay delay ends =>
    return e.command ++ " " ++ trimmed precision delay ++ (← endsText v ends)
  | .clockGroups relation groups => do
    let relation := match relation with
      | some r => " " ++ r.flag
      | none => ""
    return e.command ++ relation ++ String.join (← groups.mapM (groupText v))

end ClockTree.Writer
