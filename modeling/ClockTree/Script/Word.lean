import ClockTree.Text.Blank

/-!
# Writing words

A word that holds a character with a meaning of its own is put in braces if its braces are balanced,
and is escaped otherwise. A list is a word in braces with its elements separated by blanks.
-/
namespace ClockTree.Script

def isSpecial (c : Char) : Bool :=
  Text.isBlank c || c == '\x7b' || c == '\x7d' || c == '[' || c == ']' || c == '$' || c == '"'
    || c == '\\' || c == ';'

/-- Whether every brace has its partner, with `depth` braces open before the text. -/
def balancedFrom : Nat → List Char → Bool
  | depth, [] => depth == 0
  | depth, c :: cs =>
    if c = '\x7b' then balancedFrom (depth + 1) cs
    else if c = '\x7d' then match depth with
      | 0 => false
      | depth + 1 => balancedFrom depth cs
    else balancedFrom depth cs

def balanced (cs : List Char) : Bool := balancedFrom 0 cs

def escape (cs : List Char) : List Char :=
  cs.flatMap fun c => if isSpecial c then ['\\', c] else [c]

def writeChars (cs : List Char) : List Char :=
  if !cs.isEmpty && !cs.any isSpecial then cs
  else if balanced cs && cs.getLast? != some '\\' then '\x7b' :: cs ++ ['\x7d']
  else escape cs

def writeWord (w : String) : String := String.ofList (writeChars w.toList)

def writeList (ws : List String) : String := "\x7b" ++ " ".intercalate (ws.map writeWord) ++ "\x7d"

end ClockTree.Script
