import ClockTree.Glob.Reader
import ClockTree.Text.Quoted

/-!
# Name patterns

A name pattern is a glob over whole names, hierarchy separators included. The empty pattern and a
lone star match every name.
-/
namespace ClockTree

structure NamePattern where
  source : String
  glob : Option Glob.Pattern

structure PatternFault where
  pattern : String
  reason : Glob.Fault
deriving DecidableEq, Repr

def PatternFault.message (e : PatternFault) : String :=
  "invalid name pattern '" ++ e.pattern ++ "': " ++ e.reason.message

namespace NamePattern

def any : NamePattern := ⟨"", none⟩

def read (s : String) : Except PatternFault NamePattern :=
  if s = "" ∨ s = "*" then .ok ⟨s, none⟩
  else match Glob.read s with
    | .ok g => .ok ⟨s, some g⟩
    | .error e => .error ⟨s, e⟩

def accepts (p : NamePattern) (name : String) : Bool :=
  match p.glob with
  | none => true
  | some g => g.accepts name

def isAny (p : NamePattern) : Bool := p.glob.isNone

def metaChars : List Char := ['*', '?', '[', '\\', '\x7b']

def isLiteral (p : NamePattern) : Bool :=
  p.source != "" && !p.source.toList.any metaChars.contains

def describe (p : NamePattern) : String := "NamePattern(" ++ Text.quoted p.source ++ ")"

end NamePattern
end ClockTree
