import ClockTree.Session.Basic

/-!
# Wires that commands select

A word selects the wires whose path matches one of its elements; a query for ports, nets or bare
names selects wires as well. Ports take precedence for a bare name.
-/
namespace ClockTree.Command

/-- The wires of one kind that match a pattern; other kinds do not select wires. -/
def kindWires? (d : Design) (p : NamePattern) : ObjectKind → Option (List WireKey)
  | .ports => some (d.portsMatching p)
  | .nets => some (d.wiresMatching p)
  | .objects =>
    let ports := d.portsMatching p
    some (if ports.isEmpty then d.wiresMatching p else ports)
  | .clocks | .pins => none

def selectWires (d : Design) (command : String) (q : Query) : Except Fault (List WireKey) := do
  let patterns ← if q.patterns.isEmpty then .ok [NamePattern.any]
    else Session.readPatterns q.patterns
  match patterns.mapM fun p => kindWires? d p q.kind with
  | some found => return found.flatten.eraseDups
  | none => .error (.command (.selectsNoWires command q.text))

def wordWires (s : Session) (elements : List String) : Except Fault (List WireKey) :=
  return (← elements.mapM s.wiresMatching).flatten

def argumentWires (s : Session) (command : String) (a : Argument) : Except Fault (List WireKey) :=
  match a with
  | .word _ => wordWires s a.listItems
  | .query q => selectWires s.design command q

end ClockTree.Command
