import ClockTree.Writer.Line

/-!
# Writing constraints

The clocks are written in the order of the registry, then the exceptions in the order in which they
were declared. An exception without a line is skipped with a warning that gives its position.
-/
namespace ClockTree

namespace Notice

def unresolvedReference : Code := ⟨.exception, 1⟩

def skippedException (e : TimingException) (position : Nat) (reference : String) : Diagnostic where
  severity := .warning
  code := unresolvedReference
  message := e.command ++ " #" ++ toString position ++ ": " ++ reference
    ++ " matches nothing; record skipped"
  help := ["declare the object before writing, or enable generated clocks in the output"]

end Notice

namespace Writer

inductive Entry where
  | clock (line : String)
  | exception (line : String)
  | skipped (notice : Diagnostic)

namespace Entry

def line? : Entry → Option String
  | .clock line | .exception line => some line
  | .skipped _ => none

def notice? : Entry → Option Diagnostic
  | .skipped d => some d
  | _ => none

def size (e : Entry) : Nat := (e.line?.map fun line => line.utf8ByteSize + 1).getD 0

end Entry

def exceptionEntry (v : View) (precision : Nat) (e : TimingException) (position : Nat) : Entry :=
  match constraintLine v precision e with
  | .ok line => .exception line
  | .error reference => .skipped (Notice.skippedException e position reference)

def entries (v : View) (precision : Nat) (exceptions : List TimingException) : List Entry :=
  (v.clocks.map fun c => .clock (declarationLine v.design precision c))
    ++ exceptions.mapIdx fun i e => exceptionEntry v precision e (i + 1)

def fitting : Nat → List Entry → List Entry × Bool
  | _, [] => ([], true)
  | room, e :: es =>
    if e.size ≤ room then
      let (fit, all) := fitting (room - e.size) es
      (e :: fit, all)
    else ([], false)

end Writer

structure Written where
  text : String
  clocks : Nat
  exceptions : Nat
  skipped : Nat
deriving DecidableEq, Repr

def Written.ofEntries (es : List Writer.Entry) : Written where
  text := String.join (es.filterMap fun e => e.line?.map (· ++ "\n"))
  clocks := es.countP fun e => e matches .clock _
  exceptions := es.countP fun e => e matches .exception _
  skipped := es.countP fun e => e matches .skipped _

namespace Session

def writtenClocks (s : Session) (includeGenerated : Bool) : List Clock :=
  s.clocks.clocks.filter fun c => includeGenerated || !c.isGenerated

def entries (s : Session) (includeGenerated : Bool) : List Writer.Entry :=
  Writer.entries ⟨s.design, s.writtenClocks includeGenerated⟩ s.options.precision s.exceptions

def write (s : Session) (includeGenerated : Bool) : Written × Session :=
  let es := s.entries includeGenerated
  (.ofEntries es, s.report (es.filterMap (·.notice?)))

def writeWithin (s : Session) (room : Nat) (includeGenerated : Bool) :
    Session × Except Fault Written :=
  let (es, all) := Writer.fitting room (s.entries includeGenerated)
  (s.report (es.filterMap (·.notice?)),
    if all then .ok (.ofEntries es) else .error (.unwritable "disk full"))

end Session
end ClockTree
