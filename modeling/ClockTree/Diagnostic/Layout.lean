import ClockTree.Diagnostic.Basic
import ClockTree.Source.File

/-!
# Diagnostics as text

A head line with severity, code and message; the line of the script with carets under the span, if
the place is known; then notes and hints.
-/
namespace ClockTree.Diagnostic

def colour : Severity → String
  | .error => "31"
  | .warning => "33"
  | .note => "36"
  | .help => "32"

def severityText (colored : Bool) (s : Severity) : String :=
  if colored then "\x1b[1;" ++ colour s ++ "m" ++ s.label ++ "\x1b[0m" else s.label

def blanks (n : Nat) : String := String.ofList (List.replicate n ' ')

def excerpt (sources : SourceSet) (span : Span) : String :=
  match sources.locate? span with
  | none => ""
  | some (f, line, col) =>
    let number := toString line
    let pad := blanks number.length
    let carets := String.ofList (List.replicate (max span.size 1) '^')
    pad ++ "--> " ++ f.name ++ ":" ++ number ++ ":" ++ toString col ++ "\n"
      ++ pad ++ " |\n"
      ++ number ++ " | " ++ f.lineAt span.start ++ "\n"
      ++ pad ++ " | " ++ blanks (col - 1) ++ carets ++ "\n"

def render (colored : Bool) (sources : SourceSet) (d : Diagnostic) : String :=
  severityText colored d.severity ++ "[" ++ d.code.text ++ "]: " ++ d.message ++ "\n"
    ++ excerpt sources d.span
    ++ String.join (d.notes.map fun n => "   = note: " ++ n ++ "\n")
    ++ String.join (d.help.map fun h => "   = help: " ++ h ++ "\n")

end ClockTree.Diagnostic
