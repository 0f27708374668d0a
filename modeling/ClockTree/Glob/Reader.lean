import ClockTree.Glob.Basic

/-!
# Reading glob patterns

The reader goes through the text once. It keeps the tokens of the branch it is in, the groups that
are still open around it, the class it is in if any, and the character before the next one.
-/
namespace ClockTree.Glob

inductive Fault where
  | unclosedClass
  | invalidRange (lo hi : Char)
  | unopenedGroup
  | unclosedGroup
  | danglingEscape
deriving DecidableEq, Repr

def Fault.message : Fault → String
  | .unclosedClass => "unclosed character class; missing ']'"
  | .invalidRange lo hi =>
    "invalid range; '" ++ String.singleton lo ++ "' > '" ++ String.singleton hi ++ "'"
  | .unopenedGroup =>
    "unopened alternate group; missing '\x7b' (maybe escape '\x7d' with '[\x7d]'?)"
  | .unclosedGroup =>
    "unclosed alternate group; missing '\x7d' (maybe escape '\x7b' with '[\x7b]'?)"
  | .danglingEscape => "dangling '\\'"

structure Group where
  before : List Token
  branches : List (List Token)

structure Progress where
  tokens : List Token
  groups : List Group

namespace Progress

def push (p : Progress) (t : Token) : Progress := { p with tokens := t :: p.tokens }

def pushTwo (p : Progress) (t : Token) : Progress := (p.push t).push t

def openGroup (p : Progress) : Progress := ⟨[], ⟨p.tokens, []⟩ :: p.groups⟩

def comma (p : Progress) : Progress :=
  match p.groups with
  | [] => p.push (.literal ',')
  | g :: gs => ⟨[], ⟨g.before, p.tokens.reverse :: g.branches⟩ :: gs⟩

def closeGroup (p : Progress) : Except Fault Progress :=
  match p.groups with
  | [] => .error .unopenedGroup
  | g :: gs => .ok ⟨.choice (p.tokens.reverse :: g.branches).reverse :: g.before, gs⟩

def finish (p : Progress) : Except Fault Pattern :=
  if p.groups.isEmpty then .ok p.tokens.reverse else .error .unclosedGroup

def endsBranch (p : Progress) : List Char → Bool
  | [] => true
  | c :: _ => !p.groups.isEmpty && (c == ',' || c == '}')

/-- Replaces the slash before two stars, unless directories stand there already. -/
def replaceLast (p : Progress) (t : Token) : Progress :=
  match p.tokens with
  | .leadingDirs :: _ => p
  | .trailingDirs :: _ => p
  | _ :: ts => { p with tokens := t :: ts }
  | [] => p

/-- Two stars, after the character `before` and in front of `rest`; the flag says whether they take
the slash behind them along. They stand for directories only where slashes or the ends of the
pattern or of a branch enclose them. -/
def twoStars (p : Progress) (before : Option Char) (rest : List Char) : Progress × Bool :=
  let slashNext := rest.head? == some '/'
  if p.tokens.isEmpty then
    if rest.isEmpty || slashNext then (p.push .leadingDirs, slashNext)
    else (p.pushTwo .anyBytes, false)
  else if before == some '/'
      || (!p.groups.isEmpty && (before == some ',' || before == some '\x7b')) then
    if p.endsBranch rest then (p.replaceLast .trailingDirs, false)
    else if slashNext then (p.replaceLast .innerDirs, true)
    else (p.pushTwo .anyBytes, false)
  else (p.pushTwo .anyBytes, false)

end Progress

/-- A class that is still open: its ranges in reverse, and whether a dash waits for an upper end. -/
structure Class where
  negated : Bool
  ranges : List (Char × Char)
  dash : Bool

namespace Class

def extend (k : Class) (c : Char) : Except Fault Class :=
  match k.ranges with
  | [] => .ok { k with ranges := [(c, c)] }
  | (lo, hi) :: older =>
    if k.dash then
      if c < lo then .error (.invalidRange lo c)
      else .ok { k with ranges := (lo, c) :: older, dash := false }
    else if c = '-' then .ok { k with dash := true }
    else .ok { k with ranges := (c, c) :: (lo, hi) :: older }

def token (k : Class) : Token :=
  .oneOf k.negated (if k.dash then ('-', '-') :: k.ranges else k.ranges).reverse

end Class

mutual
def readFrom (p : Progress) (before : Option Char) : List Char → Except Fault Pattern
  | [] => p.finish
  | '?' :: cs => readFrom (p.push .anyByte) (some '?') cs
  | '*' :: '*' :: '/' :: cs =>
    match p.twoStars before ('/' :: cs) with
    | (p, true) => readFrom p (some '/') cs
    | (p, false) => readFrom (p.push (.literal '/')) (some '/') cs
  | '*' :: '*' :: cs => readFrom (p.twoStars before cs).1 (some '*') cs
  | '*' :: cs => readFrom (p.push .anyBytes) (some '*') cs
  | '[' :: '!' :: cs => readClass p ⟨true, [], false⟩ cs
  | '[' :: '^' :: cs => readClass p ⟨true, [], false⟩ cs
  | '[' :: cs => readClass p ⟨false, [], false⟩ cs
  | '{' :: cs => readFrom p.openGroup (some '\x7b') cs
  | '}' :: cs => match p.closeGroup with
    | .ok p => readFrom p (some '\x7d') cs
    | .error e => .error e
  | ',' :: cs => readFrom p.comma (some ',') cs
  | '\\' :: c :: cs => readFrom (p.push (.literal c)) (some c) cs
  | ['\\'] => .error .danglingEscape
  | c :: cs => readFrom (p.push (.literal c)) (some c) cs

def readClass (p : Progress) (k : Class) : List Char → Except Fault Pattern
  | [] => .error .unclosedClass
  | c :: cs =>
    if c = ']' ∧ !k.ranges.isEmpty then readFrom (p.push k.token) (some ']') cs
    else match k.extend c with
      | .ok k => readClass p k cs
      | .error e => .error e
end

def read (s : String) : Except Fault Pattern := readFrom ⟨[], []⟩ none s.toList

end ClockTree.Glob
