import ClockTree.Text.Blank

/-!
# Tokens of a command

A command is a sequence of words and of substitutions in brackets. A word may be bare, in braces or
in quotes; braces and brackets nest within their own kind.
-/
namespace ClockTree.Script

inductive Token where
  | word (text : List Char)
  | bracket (text : List Char)
deriving DecidableEq, Repr

inductive Enclosure where
  | brace
  | bracket
  | quote
deriving DecidableEq, Repr

namespace Enclosure

def opening : Enclosure → Char
  | .brace => '\x7b'
  | .bracket => '['
  | .quote => '"'

def closing : Enclosure → Char
  | .brace => '\x7d'
  | .bracket => ']'
  | .quote => '"'

def title : Enclosure → String
  | .brace => "close-brace"
  | .bracket => "close-bracket"
  | .quote => "close-quote"

def ofOpening? (c : Char) : Option Enclosure :=
  if c = '\x7b' then some .brace
  else if c = '[' then some .bracket
  else if c = '"' then some .quote
  else none

def token : Enclosure → List Char → Token
  | .bracket, text => .bracket text
  | _, text => .word text

end Enclosure

inductive Place where
  | between
  | bare (text : List Char)
  | enclosed (kind : Enclosure) (depth : Nat) (text : List Char)

/-- The tokens of the rest of a command, or the enclosure that is never closed. -/
def tokensFrom : Place → List Char → Except Enclosure (List Token)
  | .between, [] => .ok []
  | .bare text, [] => .ok [.word text.reverse]
  | .enclosed e _ _, [] => .error e
  | .between, c :: cs =>
    if Text.isBlank c then tokensFrom .between cs
    else match Enclosure.ofOpening? c with
      | some e => tokensFrom (.enclosed e 0 []) cs
      | none => tokensFrom (.bare [c]) cs
  | .bare text, c :: cs =>
    if Text.isBlank c then (tokensFrom .between cs).map (.word text.reverse :: ·)
    else tokensFrom (.bare (c :: text)) cs
  | .enclosed e depth text, c :: cs =>
    if c = e.closing then match depth with
      | 0 => (tokensFrom .between cs).map (e.token text.reverse :: ·)
      | depth + 1 => tokensFrom (.enclosed e depth (c :: text)) cs
    else if c = e.opening then tokensFrom (.enclosed e (depth + 1) (c :: text)) cs
    else tokensFrom (.enclosed e depth (c :: text)) cs

def tokensOf (line : List Char) : Except Enclosure (List Token) := tokensFrom .between line

end ClockTree.Script
