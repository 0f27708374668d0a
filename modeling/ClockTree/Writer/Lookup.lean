import ClockTree.Session.Basic

/-!
# Looking up what written constraints refer to

Written constraints may refer to the clocks that are written, to the ports of the top module, to any
wire, and to pins, which are taken as they are. A query resolves only if each of its patterns
matches something.
-/
namespace ClockTree.Writer

structure View where
  design : Design
  clocks : List Clock

abbrev Object := ObjectKind × String

namespace View

def names (v : View) (kind : ObjectKind) (pattern : String) : List String :=
  match NamePattern.read pattern with
  | .error _ => []
  | .ok p => match kind with
    | .clocks => (v.clocks.filter fun c => p.accepts c.name).map (·.name)
    | .ports => v.design.paths (v.design.portsMatching p)
    | .nets => v.design.paths (v.design.wiresMatching p)
    | .pins | .objects => []

def objects (v : View) (kind : ObjectKind) (pattern : String) : List Object :=
  (v.names kind pattern).map (kind, ·)

def matching (v : View) (kind : ObjectKind) (pattern : String) : List Object :=
  match kind with
  | .pins => [(.pins, pattern)]
  | .objects =>
    ([.clocks, .ports, .nets].map fun k => v.objects k pattern).find? (!·.isEmpty) |>.getD []
  | kind => v.objects kind pattern

def wireAt? (v : View) (q : Query) : Option (List Object) :=
  let found := q.effective.map (v.matching q.kind)
  if found.any List.isEmpty then none else some found.flatten

def groupNames? (v : View) (patterns : List String) : Option (List String) :=
  let found := patterns.map (v.names .clocks)
  if patterns.isEmpty || found.any List.isEmpty then none else some found.flatten.eraseDups

end View
end ClockTree.Writer
