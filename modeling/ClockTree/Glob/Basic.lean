/-!
# Glob patterns over bytes

A pattern is a sequence of tokens, each of which stands for a set of byte strings; a pattern matches
a name when the UTF-8 bytes of the name are a concatenation of one string for each token. The
matcher keeps the positions in the name at which the tokens read so far can end, in increasing
order; position `i` lies before byte `i`.
-/
namespace ClockTree.Glob

inductive Token where
  | literal (c : Char)
  | anyByte
  | anyBytes
  /-- Nothing, or anything that ends in a slash. -/
  | leadingDirs
  /-- A slash, or anything between two slashes. -/
  | innerDirs
  /-- A slash and anything behind it. -/
  | trailingDirs
  /-- One byte that lies in one of the ranges, or in none of them when negated. -/
  | oneOf (negated : Bool) (ranges : List (Char × Char))
  /-- One of the branches; empty branches are left out. -/
  | choice (branches : List (List Token))

abbrev Pattern := List Token

def slash : UInt8 := 47

def step (p : UInt8 → Bool) (bs : Array UInt8) (ends : List Nat) : List Nat :=
  ends.filterMap fun i => (bs[i]?.filter p).map fun _ => i + 1

/-- The positions behind any bytes: all from the first one on. -/
def flood (bs : Array UInt8) : List Nat → List Nat
  | [] => []
  | i :: _ => List.range' i (bs.size + 1 - i)

def union : List Nat → List Nat → List Nat
  | [], js => js
  | is, [] => is
  | i :: is, j :: js =>
    if i = j then i :: union is js
    else if i < j then i :: union is (j :: js)
    else j :: union (i :: is) js
termination_by is js => is.length + js.length

def slashed (bs : Array UInt8) (ends : List Nat) : List Nat := step (· == slash) bs ends

/-- The positions behind nothing, or behind anything that ends in a slash. -/
def entered (bs : Array UInt8) (ends : List Nat) : List Nat :=
  union ends (slashed bs (flood bs ends))

/-- The byte ranges of a range of characters. Of a character beyond ASCII each byte stands for
itself, except that a range runs from the last byte of its lower end to the first of its upper. -/
def byteRanges (lo hi : Char) : List (UInt8 × UInt8) :=
  let los := String.utf8EncodeChar lo
  let his := String.utf8EncodeChar hi
  if lo = hi then los.map fun b => (b, b)
  else
    let single (b : UInt8) := (b, b)
    los.dropLast.map single ++ [(los.getLastD 0, his.headD 0)] ++ his.tail.map single

def inRanges (ranges : List (UInt8 × UInt8)) (b : UInt8) : Bool :=
  ranges.any fun (l, h) => l ≤ b && b ≤ h

mutual
def Token.after (bs : Array UInt8) (ends : List Nat) : Token → List Nat
  | .literal c => (String.utf8EncodeChar c).foldl (fun is b => step (· == b) bs is) ends
  | .anyByte => step (fun _ => true) bs ends
  | .anyBytes => flood bs ends
  | .leadingDirs => entered bs ends
  | .innerDirs => entered bs (slashed bs ends)
  | .trailingDirs => flood bs (slashed bs ends)
  | .oneOf negated ranges =>
    let ranges := ranges.flatMap fun (lo, hi) => byteRanges lo hi
    step (fun b => inRanges ranges b != negated) bs ends
  | .choice branches =>
    if emptyBranches branches then ends else branchesAfter bs ends branches

def sequenceAfter (bs : Array UInt8) (ends : List Nat) : List Token → List Nat
  | [] => ends
  | t :: ts => sequenceAfter bs (t.after bs ends) ts

def branchesAfter (bs : Array UInt8) (ends : List Nat) : List (List Token) → List Nat
  | [] => []
  | b :: rest =>
    if emptySequence b then branchesAfter bs ends rest
    else union (sequenceAfter bs ends b) (branchesAfter bs ends rest)

def Token.isVoid : Token → Bool
  | .choice branches => emptyBranches branches
  | _ => false

def emptySequence : List Token → Bool
  | [] => true
  | t :: ts => t.isVoid && emptySequence ts

def emptyBranches : List (List Token) → Bool
  | [] => true
  | b :: rest => emptySequence b && emptyBranches rest
end

/-- Whether the pattern matches the whole byte string. A pattern of nothing but leading
directories matches everything. -/
def Pattern.acceptsBytes (p : Pattern) (bs : Array UInt8) : Bool :=
  match p with
  | [.leadingDirs] => true
  | p => (sequenceAfter bs [0] p).getLast? == some bs.size

def Pattern.accepts (p : Pattern) (name : String) : Bool := p.acceptsBytes name.toUTF8.data

end ClockTree.Glob
