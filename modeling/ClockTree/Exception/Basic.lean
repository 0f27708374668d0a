import ClockTree.Number.Layout

/-!
# Timing exceptions

False paths, bounds on delays, and groups of clocks. The ends of a path are selections that keep the
patterns as given; they are looked up when the constraints are written, so that an exception may
name a clock that does not exist yet.
-/
namespace ClockTree

inductive ObjectKind where
  | clocks
  | ports
  | nets
  | pins
  /-- Bare names: clocks, or else ports, or else nets. -/
  | objects
deriving DecidableEq, Repr

namespace ObjectKind

def command : ObjectKind → String
  | .clocks => "get_clocks"
  | .ports => "get_ports"
  | .nets => "get_nets"
  | .pins => "get_pins"
  | .objects => "get_objects"

def ofCommand? : String → Option ObjectKind
  | "get_clocks" | "all_clocks" => some .clocks
  | "get_ports" => some .ports
  | "get_nets" => some .nets
  | "get_pins" => some .pins
  | _ => none

def title : ObjectKind → String
  | .clocks => "Clocks"
  | .ports => "Ports"
  | .nets => "Nets"
  | .pins => "Pins"
  | .objects => "Objects"

end ObjectKind

/-- A query by patterns; without patterns it selects every object of its kind. -/
structure Query where
  kind : ObjectKind
  patterns : List String
deriving DecidableEq, Repr

def Query.text (q : Query) : String :=
  "[" ++ q.kind.command ++ String.join (q.patterns.map (" " ++ ·)) ++ "]"

def Query.effective (q : Query) : List String := if q.patterns.isEmpty then ["*"] else q.patterns

abbrev Selection := List Query

structure Endpoints where
  start : Option Selection := none
  through : Option Selection := none
  stop : Option Selection := none
deriving DecidableEq, Repr

inductive GroupRelation where
  | asynchronous
  | logicallyExclusive
  | physicallyExclusive
deriving DecidableEq, Repr

namespace GroupRelation

def flag : GroupRelation → String
  | .asynchronous => "-asynchronous"
  | .logicallyExclusive => "-logically_exclusive"
  | .physicallyExclusive => "-physically_exclusive"

def ofFlag? : String → Option GroupRelation
  | "-asynchronous" => some .asynchronous
  | "-logically_exclusive" => some .logicallyExclusive
  | "-physically_exclusive" => some .physicallyExclusive
  | _ => none

def title : GroupRelation → String
  | .asynchronous => "Asynchronous"
  | .logicallyExclusive => "LogicallyExclusive"
  | .physicallyExclusive => "PhysicallyExclusive"

end GroupRelation

inductive TimingException where
  | falsePath (ends : Endpoints)
  /-- Paths between the ends take no longer than the delay in nanoseconds. -/
  | maxDelay (delay : Float) (ends : Endpoints)
  | clockGroups (relation : Option GroupRelation) (groups : List (List String))
deriving DecidableEq

def TimingException.command : TimingException → String
  | .falsePath _ => "set_false_path"
  | .maxDelay .. => "set_max_delay"
  | .clockGroups .. => "set_clock_groups"

inductive ExceptionFault where
  | infiniteDelay (delay : Float)
  | noGroups
  /-- The position counts from one. -/
  | emptyGroup (position : Nat)
deriving DecidableEq

def ExceptionFault.message : ExceptionFault → String
  | .infiniteDelay delay =>
    "set_max_delay: delay must be a finite number, got " ++ Number.display delay
  | .noGroups => "set_clock_groups: at least one -group is required"
  | .emptyGroup position => "set_clock_groups: group " ++ toString position ++ " is empty"

namespace TimingException

def ofDelay (delay : Float) (ends : Endpoints) : Except ExceptionFault TimingException :=
  if delay.isFinite then .ok (.maxDelay delay ends) else .error (.infiniteDelay delay)

def ofGroups (relation : Option GroupRelation) (groups : List (List String)) :
    Except ExceptionFault TimingException :=
  if groups.isEmpty then .error .noGroups
  else match groups.findIdx? List.isEmpty with
    | some i => .error (.emptyGroup (i + 1))
    | none => .ok (.clockGroups relation groups)

end TimingException
end ClockTree
