/-!
# White space

The characters with the Unicode property `White_Space`, and the ways a text is trimmed and split at
them.
-/
namespace ClockTree.Text

/-- The property `White_Space`. -/
def isBlank (c : Char) : Bool :=
  let n := c.toNat
  (9 ≤ n && n ≤ 13) || n == 0x20 || n == 0x85 || n == 0xA0 || n == 0x1680
    || (0x2000 ≤ n && n ≤ 0x200A) || n == 0x2028 || n == 0x2029 || n == 0x202F || n == 0x205F
    || n == 0x3000

def trimStart (cs : List Char) : List Char := cs.dropWhile isBlank
def trimEnd (cs : List Char) : List Char := (cs.reverse.dropWhile isBlank).reverse

def trim (s : String) : String := String.ofList (trimEnd (trimStart s.toList))

/-- The non-empty runs of characters that do not satisfy `p`; `run` is the run being collected, in
reverse. -/
def runsFrom (p : Char → Bool) (run : List Char) : List Char → List (List Char)
  | [] => if run.isEmpty then [] else [run.reverse]
  | c :: cs =>
    if p c then if run.isEmpty then runsFrom p [] cs else run.reverse :: runsFrom p [] cs
    else runsFrom p (c :: run) cs

def runs (p : Char → Bool) (s : String) : List String := (runsFrom p [] s.toList).map String.ofList

def words (s : String) : List String := runs isBlank s

end ClockTree.Text
