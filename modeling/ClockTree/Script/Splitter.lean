import ClockTree.Text.Blank

/-!
# Splitting a script into commands

A command ends at a newline or a semicolon outside braces, brackets and quotes. A backslash before a
newline joins lines, newlines inside a command become blanks, and a line that begins with `#` where
a command could begin is a comment.
-/
namespace ClockTree.Script

structure Statement where
  text : List Char
  start : Nat
  stop : Nat
deriving DecidableEq, Repr

/-- A command that is being collected. Its text is kept in reverse; `start` is unset until its first
character is found. -/
structure Scan where
  text : List Char := []
  start : Option Nat := none
  stop : Nat := 0
  braces : Nat := 0
  brackets : Nat := 0
  quoted : Bool := false
deriving DecidableEq, Repr

namespace Scan

def nested (s : Scan) : Bool := 0 < s.braces || 0 < s.brackets || s.quoted

def blank (s : Scan) : Scan := { s with text := ' ' :: s.text }

def track (s : Scan) (c : Char) : Scan :=
  if c = '\x7b' then if s.quoted then s else { s with braces := s.braces + 1 }
  else if c = '\x7d' then if s.quoted then s else { s with braces := s.braces - 1 }
  else if c = '[' then
    if s.braces = 0 ∧ !s.quoted then { s with brackets := s.brackets + 1 } else s
  else if c = ']' then
    if s.braces = 0 ∧ !s.quoted then { s with brackets := s.brackets - 1 } else s
  else if c = '"' then if s.braces = 0 then { s with quoted := !s.quoted } else s
  else s

/-- Appends the character at `pos`; white space does not move the end of the command. -/
def push (s : Scan) (pos : Nat) (c : Char) : Scan :=
  { s with
    text := c :: s.text
    start := s.start <|> some pos
    stop := if Text.isBlank c then s.stop else pos + c.utf8Size }

def pushEscaped (s : Scan) (pos : Nat) (c : Char) : Scan :=
  { s with
    text := c :: '\\' :: s.text
    start := s.start <|> some pos
    stop := pos + 1 + c.utf8Size }

def command? (s : Scan) : Option Statement :=
  s.start.map fun start => ⟨(s.text.dropWhile Text.isBlank).reverse, start, s.stop⟩

def next (s : Scan) : Scan := { s with text := [], start := none }

end Scan

mutual
def splitFrom (pos : Nat) (s : Scan) : List Char → List Statement
  | [] => s.command?.toList
  | '\\' :: '\r' :: '\n' :: cs => splitFrom (pos + 3) s.blank cs
  | '\\' :: '\n' :: cs => splitFrom (pos + 2) s.blank cs
  | '\\' :: '\r' :: cs => splitFrom (pos + 2) s.blank cs
  | '\\' :: c :: cs => splitFrom (pos + 1 + c.utf8Size) (s.pushEscaped pos c) cs
  | c :: cs =>
    let after := pos + c.utf8Size
    if s.start.isNone ∧ (Text.isBlank c ∨ c = ';') then splitFrom after s cs
    else if s.start.isNone ∧ c = '#' then skipComment after s cs
    else if (c = '\n' ∨ c = ';') ∧ !s.nested then s.command?.toList ++ splitFrom after s.next cs
    else if c = '\n' ∨ c = '\r' then splitFrom after s.blank cs
    else splitFrom after ((s.track c).push pos c) cs

def skipComment (pos : Nat) (s : Scan) : List Char → List Statement
  | [] => s.command?.toList
  | c :: cs =>
    if c = '\n' then splitFrom (pos + 1) s cs else skipComment (pos + c.utf8Size) s cs
end

def split (source : String) : List Statement := splitFrom 0 {} source.toList

end ClockTree.Script
