import ClockTree.Config.Decode
import ClockTree.Toml.Reader

/-!
# Reading configurations

A text that is read as a configuration is also checked: passes exist, rules name a cell and its
ports, dividers have a ratio, and each clock has targets and exactly one positive period.
-/
namespace ClockTree

structure RulePlace where
  list : String
  position : Nat
deriving DecidableEq, Repr

def RulePlace.text (p : RulePlace) : String :=
  "propagation." ++ p.list ++ "[" ++ toString p.position ++ "]"

inductive ConfigFault where
  | unreadable (reason : String)
  | malformed
  | mistyped
  | emptyField (rule : RulePlace) (field : String)
  | noDivisor (rule : RulePlace)
  | zeroDivisor (rule : RulePlace)
  | unknownPass (name : String)
  | precision (places : Nat)
  | noTarget (clock : String)
  | noPeriod (clock : String)
  | period (clock : String)
deriving DecidableEq, Repr

inductive ConfigFaultKind where
  | io
  | parse
  | missingField
  | validation
deriving DecidableEq, Repr

namespace ConfigFault

def kind : ConfigFault → ConfigFaultKind
  | .unreadable _ => .io
  | .malformed | .mistyped => .parse
  | .emptyField .. | .noDivisor _ | .noTarget _ | .noPeriod _ => .missingField
  | .zeroDivisor _ | .unknownPass _ | .precision _ | .period _ => .validation

def maxPrecision : Nat := 9

def detail : ConfigFault → String
  | .unreadable reason => reason
  | .malformed => "the text breaks the grammar"
  | .mistyped => "a value is missing or of the wrong type"
  | .emptyField rule field => rule.text ++ "." ++ field
  | .noDivisor rule => rule.text ++ ".divisor_param or " ++ rule.text ++ ".divisor"
  | .zeroDivisor rule => rule.text ++ ": divisor must be positive"
  | .unknownPass name =>
    "unknown pass \x27" ++ name ++ "\x27 (expected one of: "
      ++ ", ".intercalate (Engine.builtin.map (·.name)) ++ ")"
  | .precision places =>
    "writer.precision must be at most " ++ toString maxPrecision ++ ", got " ++ toString places
  | .noTarget clock => "clocks." ++ clock ++ ".target"
  | .noPeriod clock => "clocks." ++ clock ++ ".period or clocks." ++ clock ++ ".frequency"
  | .period clock => "clocks." ++ clock ++ ": needs exactly one positive period or frequency"

def message (e : ConfigFault) : String :=
  match e.kind with
  | .io => "failed to read configuration: " ++ e.detail
  | .parse => "failed to parse configuration: " ++ e.detail
  | .missingField => "missing required field: " ++ e.detail
  | .validation => "validation error: " ++ e.detail

end ConfigFault

namespace Config

def passFault? (name : String) : Option ConfigFault :=
  if (Engine.builtin.map (·.name)).contains name then none else some (.unknownPass name)

def shapeFault? (place : RulePlace) (cell : String) (inputs outputs : List String) :
    Option ConfigFault :=
  if cell = "" then some (.emptyField place "cell")
  else if inputs.isEmpty then some (.emptyField place "inputs")
  else if outputs.isEmpty then some (.emptyField place "outputs")
  else none

def bufferFault? (i : Nat) (b : BufferRule) : Option ConfigFault :=
  shapeFault? ⟨"buffers", i⟩ b.cell b.inputs b.outputs

def dividerFault? (i : Nat) (v : DividerRule) : Option ConfigFault :=
  let place : RulePlace := ⟨"dividers", i⟩
  shapeFault? place v.cell v.inputs v.outputs <|>
    match v.divisorParam, v.divisor with
    | none, none => some (.noDivisor place)
    | _, some 0 => some (.zeroDivisor place)
    | _, _ => none

def clockFault? (name : String) (c : ConfiguredClock) : Option ConfigFault :=
  if c.target.isEmpty then some (.noTarget name)
  else if c.period.isNone && c.frequency.isNone then some (.noPeriod name)
  else match c.period? with
    | some p => if 0 < p && p.isFinite then none else some (.period name)
    | none => some (.period name)

def fault? (c : Config) : Option ConfigFault :=
  c.passes.findSome? passFault?
    <|> c.buffers.zipIdx.findSome? (fun (b, i) => bufferFault? i b)
    <|> c.dividers.zipIdx.findSome? (fun (v, i) => dividerFault? i v)
    <|> (if ConfigFault.maxPrecision < c.options.precision then
        some (.precision c.options.precision) else none)
    <|> c.clocks.findSome? fun (name, clock) => clockFault? name clock

def read (text : String) : Except ConfigFault Config :=
  match Toml.read? text with
  | none => .error .malformed
  | some root => match Decode.config? root with
    | none => .error .mistyped
    | some c => match c.fault? with
      | some e => .error e
      | none => .ok c

end Config
end ClockTree
