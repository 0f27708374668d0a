import ClockTree.Exception.Basic
import ClockTree.Diagnostic.Basic
import ClockTree.Json.Schema

/-!
# Interchange forms

The schemas of the records that are exchanged as documents. Numbers of names, modules, wires, cells
and files have 32 bits; a record may leave out what is optional.
-/
namespace ClockTree.Interchange
open Json

def field (name : String) (s : Schema) : (String × Option String) × Missing × Schema :=
  ((name, none), .refused, s)

def optionalField (name : String) (s : Schema) : (String × Option String) × Missing × Schema :=
  ((name, none), .absent, .optional s)

def number : Schema := .natural 0xFFFFFFFF

def names (ns : List String) : Schema := .variant (ns.map (·, none))

def wireKey : Schema := .record [field "module" number, field "wire" number]

def waveform : Schema := .record [field "rising_ns" .real, field "falling_ns" .real]

def wave : Schema := .record [field "period_ns" .real, field "waveform" waveform]

def origin : Schema := names ["Explicit", "Generated"]

def clock : Schema := .record [
  field "name" number, field "wires" (.list wireKey), field "period_ns" .real,
  field "waveform" waveform, field "origin" origin, optionalField "parent" number]

def direction : Schema := names ["Input", "Output", "InOut"]

def connection : Schema := .record [
  field "port" number, field "direction" direction, field "wire" number]

def paramValue : Schema :=
  .variant [("Int", some .integer), ("Real", some .real), ("Str", some .text)]

def objectKind : Schema :=
  names ([ObjectKind.clocks, .ports, .nets, .pins, .objects].map ObjectKind.title)

def query : Schema := .record [field "kind" objectKind, field "patterns" (.list .text)]

def selection : Schema := .record [field "queries" (.list query)]

def groupRelation : Schema :=
  names ([GroupRelation.asynchronous, .logicallyExclusive, .physicallyExclusive].map
    GroupRelation.title)

def endFields : List ((String × Option String) × Missing × Schema) :=
  ["from", "through", "to"].map (optionalField · selection)

def timingException : Schema := .variant [
  ("FalsePath", some (.record endFields)),
  ("MaxDelay", some (.record (field "delay_ns" .real :: endFields))),
  ("ClockGroups", some (.record [
    optionalField "relation" groupRelation, field "groups" (.list (.list .text))]))]

def span : Schema := .record [field "file" number, field "start" number, field "end" number]

def severity : Schema := names ([Severity.help, .note, .warning, .error].map Severity.title)

def topic : Schema :=
  names ([Topic.clock, .propagation, .exception, .script, .query].map Topic.title)

def code : Schema := .record [field "category" topic, field "number" (.natural 0xFFFF)]

def diagnostic : Schema := .record [
  field "severity" severity, field "code" code, field "message" .text, field "span" span,
  field "notes" (.list .text), field "help" (.list .text)]

def schema? : String → Option Schema
  | "TimingException" => some timingException
  | "Selection" => some selection
  | "EndpointQuery" => some query
  | "ClockGroupRelation" => some groupRelation
  | "Clock" => some clock
  | "ClockWave" => some wave
  | "ParamValue" => some paramValue
  | "Connection" => some connection
  | "WireRef" => some wireKey
  | "CellId" => some number
  | "Diagnostic" => some diagnostic
  | "Span" => some span
  | "Frequency" => some .real
  | _ => none

def normalize? (record text : String) : Option String := do
  let v ← (← schema? record).read? text
  some v.compact

end ClockTree.Interchange
