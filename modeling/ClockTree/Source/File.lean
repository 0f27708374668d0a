import ClockTree.Source.Span

/-!
# Lines and columns

Offsets count the bytes of the UTF-8 form. A line ends before its newline; lines and columns count
from one, columns in bytes.
-/
namespace ClockTree

structure SourceFile where
  name : String
  content : String

namespace SourceFile

/-- The offsets behind the newlines of a text that begins at `pos`. -/
def startsFrom (pos : Nat) : List Char → List Nat
  | [] => []
  | c :: cs =>
    let next := pos + c.utf8Size
    if c = '\n' then next :: startsFrom next cs else startsFrom next cs

/-- The offsets at which the lines start, in increasing order. -/
def lineStarts (f : SourceFile) : Array Nat := (0 :: startsFrom 0 f.content.toList).toArray

/-- The last of `size` positions from `base` on whose entry is not beyond the offset, given that the
entry at `base` is not. Each step leaves out about half of the positions. -/
def bisect (starts : Array Nat) (offset base size : Nat) : Nat :=
  if size ≤ 1 then base
  else
    let half := size / 2
    let base := if offset < starts.getD (base + half) 0 then base else base + half
    bisect starts offset base (size - half)
termination_by size

def locate (starts : Array Nat) (offset : Nat) : Except Nat Nat :=
  if starts.isEmpty then .error 0
  else
    let i := bisect starts offset 0 starts.size
    let start := starts.getD i 0
    if start = offset then .ok i else if start < offset then .error (i + 1) else .error i

def lineAndColumn (f : SourceFile) (offset : Nat) : Nat × Nat :=
  let starts := f.lineStarts
  let line := match locate starts offset with
    | .ok i => i
    | .error i => i - 1
  (line + 1, offset - starts.getD line 0 + 1)

/-- The line around an offset, after the part of it in front of `cs`, which is given in reverse. -/
def lineAround (part : List Char) : Nat → List Char → List Char
  | _, [] => part.reverse
  | offset, c :: cs =>
    if offset = 0 then part.reverse ++ (c :: cs).takeWhile (· != '\n')
    else lineAround (if c = '\n' then [] else c :: part) (offset - c.utf8Size) cs

def lineAt (f : SourceFile) (offset : Nat) : String :=
  String.ofList (lineAround [] offset f.content.toList)

def fromOffset? : Nat → List Char → Option (List Char)
  | 0, cs => some cs
  | _ + 1, [] => none
  | n + 1, c :: cs => if c.utf8Size ≤ n + 1 then fromOffset? (n + 1 - c.utf8Size) cs else none
termination_by _ cs => cs

def upToOffset? : Nat → List Char → Option (List Char)
  | 0, _ => some []
  | _ + 1, [] => none
  | n + 1, c :: cs =>
    if c.utf8Size ≤ n + 1 then (upToOffset? (n + 1 - c.utf8Size) cs).map (c :: ·) else none
termination_by _ cs => cs

def slice? (f : SourceFile) (start stop : Nat) : Option String := do
  if start ≤ stop then
    let rest ← fromOffset? start f.content.toList
    (upToOffset? (stop - start) rest).map String.ofList
  else none

end SourceFile

structure SourceSet where
  files : List SourceFile := []

namespace SourceSet

def add (s : SourceSet) (f : SourceFile) : Nat × SourceSet := (s.files.length, ⟨s.files ++ [f]⟩)

def file? (s : SourceSet) (id : Nat) : Option SourceFile := s.files[id]?

def locate? (s : SourceSet) (span : Span) : Option (SourceFile × Nat × Nat) :=
  (s.file? span.file).map fun f => (f, f.lineAndColumn span.start)

def place? (s : SourceSet) (span : Span) : Option String :=
  (s.locate? span).map fun (f, line, col) => f.name ++ ":" ++ toString line ++ ":" ++ toString col

def slice? (s : SourceSet) (span : Span) : Option String := do
  (← s.file? span.file).slice? span.start span.stop

end SourceSet
end ClockTree
