import ClockTree.Name.Pattern
import ClockTree.Netlist.Basic

/-!
# Wire paths and searches

The path of a wire of the top module is its name, and that of any other wire is the name of its
module, a slash and its name.
-/
namespace ClockTree.Design

def path? (d : Design) (w : WireKey) : Option String := do
  let m ← d.module? w.module
  let wire ← m.wires[w.wire]?
  some (if d.top = some w.module then wire.name else m.name ++ "/" ++ wire.name)

def paths (d : Design) (ws : List WireKey) : List String := ws.filterMap d.path?

def splitAtSlash? (s : String) : Option (String × String) :=
  match s.toList.span (· != '/') with
  | (_, []) => none
  | (left, _ :: right) => some (String.ofList left, String.ofList right)

/-- The wire of the top module with this name, or else the wire in the module that the text before
the first slash names. -/
def wireAt? (d : Design) (path : String) : Option WireKey :=
  let inTop : Option WireKey := do
    let top ← d.topModule?
    some ⟨top.id, ← top.wireIndex? path⟩
  let inModule : Option WireKey := do
    let (left, right) ← splitAtSlash? path
    let m ← d.moduleNamed? left
    some ⟨m.id, ← m.wireIndex? right⟩
  inTop <|> inModule

def wiresMatching (d : Design) (p : NamePattern) : List WireKey :=
  d.wireRefs.filter fun w => ((d.path? w).map p.accepts).getD false

def portsMatching (d : Design) (p : NamePattern) : List WireKey :=
  match d.top, d.topModule? with
  | some top, some m =>
    let ports := m.wires.zipIdx.filter fun (w, _) => w.port.isSome && p.accepts w.name
    ports.map fun (_, i) => ⟨top, i⟩
  | _, _ => []

def wiresCalled (d : Design) (name : String) : List WireKey :=
  d.modules.zipIdx.filterMap fun (m, i) => (m.wireIndex? name).map (⟨i, ·⟩)

end ClockTree.Design
