import ClockTree.Diagnostic.Basic

/-!
# Collecting diagnostics

A log holds diagnostics in the order in which they were raised. Its counts cover everything that
was ever raised, so they stay when the diagnostics are taken out.
-/
namespace ClockTree

structure DiagnosticLog where
  held : List Diagnostic := []
  errors : Nat := 0
  warnings : Nat := 0

namespace DiagnosticLog

def put (l : DiagnosticLog) (d : Diagnostic) : DiagnosticLog where
  held := l.held ++ [d]
  errors := l.errors + if d.severity = .error then 1 else 0
  warnings := l.warnings + if d.severity = .warning then 1 else 0

def putAll (l : DiagnosticLog) (ds : List Diagnostic) : DiagnosticLog := ds.foldl put l

def sawError (l : DiagnosticLog) : Bool := 0 < l.errors

def take (l : DiagnosticLog) : List Diagnostic × DiagnosticLog := (l.held, { l with held := [] })

def ofCode (l : DiagnosticLog) (c : Code) : List Diagnostic := l.held.filter (·.code = c)

end DiagnosticLog
end ClockTree
