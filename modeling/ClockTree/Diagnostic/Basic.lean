import ClockTree.Source.Span
import ClockTree.Json.Value

/-!
# Diagnostics

A diagnostic has a severity, a code, a message and a place, and may carry notes and hints. Codes are
grouped by the part of the program that raises them.
-/
namespace ClockTree

inductive Severity where
  | help
  | note
  | warning
  | error
deriving DecidableEq, Repr

namespace Severity

def rank : Severity → Nat
  | .help => 0
  | .note => 1
  | .warning => 2
  | .error => 3

def label : Severity → String
  | .help => "help"
  | .note => "note"
  | .warning => "warning"
  | .error => "error"

def title : Severity → String
  | .help => "Help"
  | .note => "Note"
  | .warning => "Warning"
  | .error => "Error"

end Severity

inductive Topic where
  | clock
  | propagation
  | exception
  | script
  | query
deriving DecidableEq, Repr

namespace Topic

def letter : Topic → String
  | .clock => "C"
  | .propagation => "P"
  | .exception => "X"
  | .script => "S"
  | .query => "Q"

def title : Topic → String
  | .clock => "Clock"
  | .propagation => "Propagation"
  | .exception => "Exception"
  | .script => "Script"
  | .query => "Query"

end Topic

structure Code where
  topic : Topic
  number : Nat
deriving DecidableEq, Repr

def Code.text (c : Code) : String :=
  let digits := (toString c.number).toList
  c.topic.letter ++ String.ofList (List.replicate (3 - digits.length) '0' ++ digits)

structure Diagnostic where
  severity : Severity
  code : Code
  message : String
  span : Span := Span.nowhere
  notes : List String := []
  help : List String := []
deriving DecidableEq, Repr

def Diagnostic.toJson (d : Diagnostic) : Json :=
  .obj [
    ("severity", .str d.severity.title),
    ("code", .obj [("category", .str d.code.topic.title), ("number", .int d.code.number)]),
    ("message", .str d.message),
    ("span", .obj [("file", .int d.span.file), ("start", .int d.span.start),
      ("end", .int d.span.stop)]),
    ("notes", Json.strings d.notes),
    ("help", Json.strings d.help)]

end ClockTree
