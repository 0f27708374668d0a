import Std.Data.TreeMap
import ClockTree.Clock.Basic
import ClockTree.Netlist.Path

/-!
# The registry of clocks

Clocks are kept in the order in which their names were first registered, and a wire carries at most
one clock. One index says where the clock with a name stands, another which clock is on a wire.
-/
namespace ClockTree

structure Registry where
  clocks : List Clock := []
  /-- The position of the clock with a name. -/
  byName : Std.TreeMap String Nat := {}
  /-- The name of the clock on a wire. -/
  byWire : Std.TreeMap WireKey String := {}

namespace Registry

def named? (r : Registry) (name : String) : Option Clock := do r.clocks[← r.byName[name]?]?

def carrier? (r : Registry) (w : WireKey) : Option Clock := do r.named? (← r.byWire[w]?)

def matching (r : Registry) (p : NamePattern) : List Clock :=
  r.clocks.filter fun c => p.accepts c.name

def wires (r : Registry) : List WireKey := r.clocks.flatMap (·.wires)

def isEmpty (r : Registry) : Bool := r.clocks.isEmpty

def reaches (r : Registry) (ancestor : String) : Nat → Option String → Bool
  | 0, _ => false
  | _ + 1, none => false
  | n + 1, some name =>
    name == ancestor || r.reaches ancestor n ((r.named? name).bind Clock.parent?)

/-- Whether the first name is the second or stands on its chain of parents. -/
def leadsTo (r : Registry) (ancestor clock : String) : Bool :=
  r.reaches ancestor (r.clocks.length + 1) (some clock)

def fastest? (r : Registry) : Option Clock :=
  match r.clocks with
  | [] => none
  | c :: cs =>
    some (cs.foldl (fun best c => if c.wave.period < best.wave.period then c else best) c)

/-- Takes the wires of the clock with this name out of the index. -/
def release (r : Registry) (name : String) : Option Registry :=
  match r.byName[name]? with
  | none => some r
  | some i => do
    let c ← r.clocks[i]?
    return { r with byWire := c.wires.foldl (·.erase ·) r.byWire }

/-- Puts a clock in the place of the one with its name, or at the end, and on its wires. -/
def place (r : Registry) (c : Clock) : Option Registry :=
  let byWire := c.wires.foldl (·.insert · c.name) r.byWire
  match r.byName[c.name]? with
  | some i => if i < r.clocks.length then some { r with clocks := r.clocks.set i c, byWire } else none
  | none => some {
      clocks := r.clocks ++ [c]
      byName := r.byName.insert c.name r.clocks.length
      byWire }

def remove (r : Registry) (name : String) : Option Registry :=
  match r.byName[name]? with
  | none => some r
  | some i => do
    let c ← r.clocks[i]?
    return {
      clocks := r.clocks.eraseIdx i
      byName := (r.byName.erase name).map fun _ j => if i < j then j - 1 else j
      byWire := c.wires.foldl (fun m w => if m[w]? = some name then m.erase w else m) r.byWire }

end Registry
end ClockTree
