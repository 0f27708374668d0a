import ClockTree.Command.Script
import ClockTree.Writer.Document

/-!
# What reports tell

Results about reports are stated by what a reader sees of them: the code, the severity, the message
and the remarks below it. Each kind of report has one lemma that gives them.
-/
namespace ClockTree

theorem DiagnosticLog.held_putAll (l : DiagnosticLog) (ds : List Diagnostic) :
    (l.putAll ds).held = l.held ++ ds := by
  induction ds generalizing l with
  | nil => exact (List.append_nil _).symm
  | cons n ds ih => exact (ih (l.put n)).trans (List.append_assoc ..)

namespace Diagnostic

/-- The remarks are the notes and then the hints. -/
structure Says (n : Diagnostic) (code : String) (severity : Severity) (message : String)
    (remarks : List String) : Prop where
  code : n.code.text = code
  severity : n.severity = severity
  message : n.message = message
  remarks : n.notes ++ n.help = remarks

def TellsMoved (n : Diagnostic) (path owner name : String) : Prop :=
  n.Says "C003" .warning
    ("wire `" ++ path ++ "` moved from clock `" ++ owner ++ "` to clock `" ++ name ++ "`")
    ["a wire carries at most one clock; the latest declaration wins"]

def TellsDropped (n : Diagnostic) (name : String) : Prop :=
  n.Says "C004" .note ("clock `" ++ name ++ "` no longer drives any wire and was removed") []

def TellsRederived (n : Diagnostic) (name path oldParent source : String) : Prop :=
  n.Says "C003" .warning
    ("generated clock `" ++ name ++ "` on `" ++ path ++ "` replaced: derived from `" ++ oldParent
      ++ "`, now from `" ++ source ++ "`")
    ["no clock reaching the cell's clock inputs matches its parent"]

def TellsUnsupported (n : Diagnostic) (substitution : String) : Prop :=
  n.Says "S003" .error
    ("unsupported command substitution `[" ++ Text.trim substitution ++ "]`") []

def TellsSkipped (n : Diagnostic) (command : String) (position : Nat) (reference : String) : Prop :=
  n.Says "X001" .warning
    (command ++ " #" ++ toString position ++ ": " ++ reference
      ++ " matches nothing; record skipped")
    ["declare the object before writing, or enable generated clocks in the output"]

end Diagnostic

namespace Notice

theorem wireMoved_text : wireMoved.text = "C003" := by decide +kernel
theorem clockDropped_text : clockDropped.text = "C004" := by decide +kernel
theorem malformedCommand_text : malformedCommand.text = "S003" := by decide +kernel
theorem unresolvedReference_text : unresolvedReference.text = "X001" := by decide +kernel

theorem moved_tells (path owner name : String) :
    (moved path owner name).TellsMoved path owner name :=
  ⟨wireMoved_text, rfl, rfl, rfl⟩

theorem dropped_tells (name : String) : (dropped name).TellsDropped name :=
  ⟨clockDropped_text, rfl, rfl, rfl⟩

theorem rederived_tells (name path oldParent source : String) :
    (rederived name path oldParent source).TellsRederived name path oldParent source :=
  ⟨wireMoved_text, rfl, rfl, rfl⟩

theorem malformedAt_tells (span : Span) (substitution : String) :
    (malformedAt span (.unsupported substitution)).TellsUnsupported substitution :=
  ⟨malformedCommand_text, rfl, rfl, rfl⟩

theorem skippedException_tells (e : TimingException) (position : Nat) (reference : String) :
    (skippedException e position reference).TellsSkipped e.command position reference :=
  ⟨unresolvedReference_text, rfl, rfl, rfl⟩

end Notice
end ClockTree
