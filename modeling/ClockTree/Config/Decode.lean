import ClockTree.Config.Basic
import ClockTree.Toml.Value

/-!
# Configurations as tables

Each part of a configuration is a record: a table with its fields by name, where other names are
ignored, or an array with its fields in order. An integer may stand for a real number.
-/
namespace ClockTree.Config.Decode
open Toml

inductive Fields where
  | named (es : Entries)
  | ordered (items : List Value)

def items? : Value → Option (List Value)
  | .array items => some items
  | .rows tables => some (tables.map (.table .header))
  | _ => none

/-- A date is a record without any of the fields. -/
def fields? : Value → Option Fields
  | .table _ es => some (.named es)
  | .moment => some (.named [])
  | v => (items? v).map .ordered

def Fields.get? (fs : Fields) (position : Nat) (name : String) : Option Value :=
  match fs with
  | .named es => es.get? name
  | .ordered items => items[position]?

variable {α : Type}

def Fields.required (fs : Fields) (position : Nat) (name : String) (read : Value → Option α) :
    Option α :=
  (fs.get? position name).bind read

def Fields.defaulted (fs : Fields) (position : Nat) (name : String) (read : Value → Option α)
    (a : α) : Option α :=
  match fs.get? position name with
  | some v => read v
  | none => some a

def Fields.optional (fs : Fields) (position : Nat) (name : String) (read : Value → Option α) :
    Option (Option α) :=
  match fs.get? position name, fs with
  | some v, _ => (read v).map some
  | none, .named _ => some none
  | none, .ordered _ => none

def bool? : Value → Option Bool
  | .bool b => some b
  | _ => none

def text? : Value → Option String
  | .text s => some s
  | _ => none

def natural? (bound : Nat) : Value → Option Nat
  | .int n => if 0 ≤ n ∧ n ≤ bound then some n.toNat else none
  | _ => none

def real? : Value → Option Float
  | .int n => some (Float.ofInt n)
  | .real x => some x
  | _ => none

def list? (read : Value → Option α) (v : Value) : Option (List α) := do (← items? v).mapM read

def texts? : Value → Option (List String)
  | .text s => some [s]
  | v => list? text? v

/-- Two numbers; what follows them is ignored. -/
def edges? (v : Value) : Option (Float × Float) := do
  match ← items? v with
  | a :: b :: _ => some (← real? a, ← real? b)
  | _ => none

def buffer? (v : Value) : Option BufferRule := do
  let fs ← fields? v
  some {
    cell := ← fs.required 0 "cell" text?
    inputs := ← fs.required 1 "inputs" texts?
    outputs := ← fs.required 2 "outputs" texts? }

def divider? (v : Value) : Option DividerRule := do
  let fs ← fields? v
  some {
    cell := ← fs.required 0 "cell" text?
    inputs := ← fs.required 1 "inputs" texts?
    outputs := ← fs.required 2 "outputs" texts?
    divisorParam := ← fs.optional 3 "divisor_param" text?
    invertParam := ← fs.optional 4 "invert_param" text?
    divisor := ← fs.optional 5 "divisor" (natural? 0xFFFFFFFF) }

def clock? (v : Value) : Option ConfiguredClock := do
  let fs ← fields? v
  some {
    target := ← fs.required 0 "target" texts?
    period := ← fs.optional 1 "period" real?
    frequency := ← fs.optional 2 "frequency" text?
    edges := ← fs.optional 3 "waveform" edges? }

def clocks? : Value → Option (List (String × ConfiguredClock))
  | .table _ es => do
    let clocks ← es.mapM fun (name, v) => (clock? v).map (name, ·)
    some (clocks.mergeSort fun a b => a.1 ≤ b.1)
  | _ => none

def propagation? (c : Config) (v : Value) : Option Config := do
  let fs ← fields? v
  some { c with
    builtinRules := ← fs.defaulted 0 "builtin_rules" bool? c.builtinRules
    passes := ← fs.defaulted 1 "passes" (list? text?) c.passes
    buffers := ← fs.defaulted 2 "buffers" (list? buffer?) c.buffers
    dividers := ← fs.defaulted 3 "dividers" (list? divider?) c.dividers }

def writer? (c : Config) (v : Value) : Option Config := do
  let fs ← fields? v
  some { c with
    options := {
      includeGenerated := ← fs.defaulted 0 "include_generated" bool? c.options.includeGenerated
      precision := ← fs.defaulted 1 "precision" (natural? 0xFFFFFFFFFFFFFFFF) c.options.precision } }

def config? (root : Entries) : Option Config := do
  let c ← match root.get? "propagation" with
    | some v => propagation? {} v
    | none => some {}
  let c ← match root.get? "writer" with
    | some v => writer? c v
    | none => some c
  match root.get? "clocks" with
  | some v => (clocks? v).map fun clocks => { c with clocks }
  | none => some c

end ClockTree.Config.Decode
