import ClockTree.Exception.Basic
import ClockTree.Number.Reader
import ClockTree.Script.Token

/-!
# Arguments of commands

An argument is a word or an object query. In a script a query is a substitution such as
`[get_ports clk]`; other substitutions are refused.
-/
namespace ClockTree

inductive Argument where
  | word (text : String)
  | query (q : Query)
deriving DecidableEq, Repr

namespace Argument

def text : Argument → String
  | .word w => w
  | .query q => q.text

def word? : Argument → Option String
  | .word w => some w
  | .query _ => none

/-- Whether an argument is an option: a word that begins with a dash and is not a number. -/
def isSwitch : Argument → Bool
  | .word w => w.toList.head? == some '-' && (Number.read? w).isNone
  | .query _ => false

def listItems : Argument → List String
  | .word w => Text.runs (fun c => Text.isBlank c || c == '\x7b' || c == '\x7d') w
  | .query _ => []

end Argument

namespace Script

inductive Malformation where
  | unclosed (enclosure : Enclosure) (line : String)
  | unsupported (substitution : String)
  | unsupportedOption (option substitution : String)
  | empty
deriving DecidableEq, Repr

def Malformation.message : Malformation → String
  | .unclosed enclosure line => "missing " ++ enclosure.title ++ " in `" ++ line ++ "`"
  | .unsupported inner => "unsupported command substitution `[" ++ Text.trim inner ++ "]`"
  | .unsupportedOption option inner =>
    "unsupported option " ++ option ++ " in `[" ++ Text.trim inner ++ "]`"
  | .empty => "empty command"

def tokenizeLine (line : List Char) : Except Malformation (List Token) :=
  match tokensOf line with
  | .ok ts => .ok ts
  | .error e => .error (.unclosed e (String.ofList line))

def ignoredOptions : List String :=
  ["-hierarchical", "-quiet", "-nocase", "-include_generated_clocks"]

def readPatterns (inner : List Char) : List Token → Except Malformation (List String)
  | [] => .ok []
  | .bracket nested :: _ => .error (.unsupported (String.ofList nested))
  | .word w :: ts =>
    let word := String.ofList w
    if ignoredOptions.contains word then readPatterns inner ts
    else if w.head? = some '-' then .error (.unsupportedOption word (String.ofList inner))
    else (readPatterns inner ts).map (Text.words word ++ ·)

def readQuery (inner : List Char) : Except Malformation Query := do
  let unsupported := Malformation.unsupported (String.ofList inner)
  match ← tokenizeLine inner with
  | .word command :: ts => match ObjectKind.ofCommand? (String.ofList command) with
    | none => .error unsupported
    | some kind =>
      let patterns ← readPatterns inner ts
      return ⟨kind, if "all_clocks".toList.isPrefixOf (Text.trimStart inner) then [] else patterns⟩
  | _ => .error unsupported

def readArgument : Token → Except Malformation Argument
  | .word w => .ok (.word (String.ofList w))
  | .bracket inner => (readQuery inner).map .query

def readCommand (line : List Char) : Except Malformation (String × List Argument) := do
  match ← tokenizeLine line with
  | [] => .error .empty
  | .bracket inner :: _ => .error (.unsupported (String.ofList inner))
  | .word name :: ts => return (String.ofList name, ← ts.mapM readArgument)

end Script
end ClockTree
