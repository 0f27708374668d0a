import ClockTree.Json.Schema
import ClockTree.Netlist.Assembly

/-!
# Netlists as interchange documents

A document lists for every module its ports, cells and nets by name. Ports, nets and the ports of
cells are lists of bits, and a bit that is a natural number belongs to the wire of the first name
that lists it: ports before visible nets before hidden nets, each in name order. A port of a cell is
connected once to each wire that owns one of its bits; other bits connect nothing.
-/
namespace ClockTree

structure Bits where
  count : Nat
  numbers : List Nat
deriving DecidableEq, Repr

def Bits.width (b : Bits) : Nat := max b.count 1

structure NetDocument where
  bits : Bits
  hidden : Bool
deriving DecidableEq, Repr

structure CellDocument where
  kind : String
  params : List (String × Parameter)
  directions : List (String × Direction)
  connections : List (String × Bits)

structure ModuleDocument where
  marked : Bool
  ports : List (String × Direction × Bits)
  cells : List (String × CellDocument)
  nets : List (String × NetDocument)

structure NetlistDocument where
  top : Option String
  modules : List (String × ModuleDocument)

inductive NetlistFault where
  | unreadable (reason : String)
  | malformed
  | unknownTop (name : String)
deriving DecidableEq, Repr

namespace NetlistDocument
open Json

def bitsSchema : Schema := .list .any

def portSchema : Schema := .record [
  (("direction", none), .refused, .text),
  (("bits", none), .is (.arr []), bitsSchema)]

def cellSchema : Schema := .record [
  (("type", none), .refused, .text),
  (("parameters", none), .is (.obj []), .map .any),
  (("port_directions", none), .is (.obj []), .map .text),
  (("connections", none), .is (.obj []), .map bitsSchema)]

def netSchema : Schema := .record [
  (("bits", none), .is (.arr []), bitsSchema),
  (("hide_name", none), .is (.int 0), .natural 255)]

def moduleSchema : Schema := .record [
  (("attributes", none), .is (.obj []), .map .any),
  (("ports", none), .is (.obj []), .map portSchema),
  (("cells", none), .is (.obj []), .map cellSchema),
  (("netnames", some "wires"), .is (.obj []), .map netSchema)]

def schema : Schema := .record [
  (("top", none), .is .null, .optional .text),
  (("modules", none), .is (.obj []), .map moduleSchema)]

def readDirection : String → Direction
  | "input" => .input
  | "output" => .output
  | _ => .inout

/-- Whether an attribute is set: true, a number other than zero, or a text with a one in it. -/
def isSet : Json → Bool
  | .bool b => b
  | .int n => n != 0
  | .real x => x != 0
  | .str s => s.toList.contains '1'
  | _ => false

def dropBlank (s : String) : String :=
  match s.toList.reverse with
  | ' ' :: cs => String.ofList cs.reverse
  | _ => s

def binary? (s : String) : Option Nat :=
  let cs := s.toList
  if !cs.isEmpty && cs.all (fun c => c == '0' || c == '1') then
    some (Number.digitsValue 2 (cs.filterMap Number.digit?))
  else none

/-- A parameter. Binary digits that fit in 64 bits with sign are an integer; a text that could be
mistaken for such digits ends in a blank, which is dropped. What is neither a number, a truth value
nor a text is kept as it is written. -/
def readParam : Json → Parameter
  | .int n => if n ≤ Number.maxInt64 then .int n else .real (Float.ofInt n)
  | .real x => .real x
  | .bool b => .int (if b then 1 else 0)
  | .str s => match binary? s with
    | some n => if n ≤ Number.maxInt64 then .int n else .str s
    | none => .str (dropBlank s)
  | v => .str v.compact

def readBits (v : Json) : Bits where
  count := v.items.length
  numbers := v.items.filterMap fun
    | .int n => if 0 ≤ n then some n.toNat else none
    | _ => none

def readCell (v : Json) : CellDocument where
  kind := (v.member "type").text
  params := (v.member "parameters").members.map fun (k, p) => (k, readParam p)
  directions := (v.member "port_directions").members.map fun (k, d) => (k, readDirection d.text)
  connections := (v.member "connections").members.map fun (k, b) => (k, readBits b)

def readModule (v : Json) : ModuleDocument where
  marked := isSet ((v.member "attributes").member "top")
  ports := (v.member "ports").members.map fun (k, p) =>
    (k, readDirection (p.member "direction").text, readBits (p.member "bits"))
  cells := (v.member "cells").members.map fun (k, c) => (k, readCell c)
  nets := (v.member "netnames").members.map fun (k, n) =>
    (k, ⟨readBits (n.member "bits"), (n.member "hide_name").toInt != 0⟩)

def read? (text : String) : Option NetlistDocument := do
  let v ← schema.read? text
  some {
    top := (v.member "top").text?
    modules := (v.member "modules").members.map fun (k, m) => (k, readModule m) }

end NetlistDocument

namespace ModuleDocument

/-- The names of a module that own bits, in the order in which they claim them. -/
def claims (m : ModuleDocument) : List (String × Bits × Option Direction) :=
  let net (n : String × NetDocument) := (n.1, n.2.bits, (none : Option Direction))
  m.ports.map (fun (k, d, b) => (k, b, some d))
    ++ (m.nets.filter fun n => !n.2.hidden).map net
    ++ (m.nets.filter fun n => n.2.hidden).map net

end ModuleDocument

abbrev BitOwners := List (Nat × Nat)

def BitOwners.claim (owners : BitOwners) (bits : Bits) (wire : Nat) : BitOwners :=
  bits.numbers.foldl (fun os b => if (os.lookup b).isSome then os else os ++ [(b, wire)]) owners

def BitOwners.wires (owners : BitOwners) (bits : Bits) : List Nat :=
  bits.numbers.foldl (fun ws b => match owners.lookup b with
    | some w => if ws.contains w then ws else ws ++ [w]
    | none => ws) []

def CellDocument.direction (c : CellDocument) (port : String) : Direction :=
  (c.directions.lookup port).getD .inout

def CellDocument.toCell (c : CellDocument) (owners : BitOwners) (name : String) : Cell :=
  let bare : Cell := ⟨name, c.kind, [], []⟩
  let withParams := c.params.foldl (fun cell (k, v) => cell.setParam k v) bare
  c.connections.foldl (fun cell (port, bits) =>
    (owners.wires bits).foldl (fun cell w => cell.attach port (c.direction port) w) cell) withParams

def Design.addContents (d : Design) (i : Nat) (m : ModuleDocument) : Design :=
  let (d, owners) := m.claims.foldl (fun (d, owners) (name, bits, port) =>
    let (w, d) := d.declareWire i name bits.width port
    (d, BitOwners.claim owners bits w)) (d, ([] : BitOwners))
  m.cells.foldl (fun d (name, c) => d.placeCell i (c.toCell owners name)) d

namespace NetlistDocument

def topName? (doc : NetlistDocument) : Except NetlistFault (Option String) :=
  match doc.top with
  | some name =>
    if (doc.modules.lookup name).isSome then .ok (some name) else .error (.unknownTop name)
  | none => .ok ((doc.modules.find? fun (_, m) => m.marked).map (·.1))

def toDesign (doc : NetlistDocument) : Except NetlistFault Design := do
  let top ← doc.topName?
  let d := doc.modules.foldl (fun (d : Design) (name, _) => (d.declareModule name).2) {}
  .ok (doc.modules.zipIdx.foldl (fun d ((name, m), i) =>
    (if top = some name then d.markTop i else d).addContents i m) d)

end NetlistDocument

def Design.read (text : String) : Except NetlistFault Design :=
  match NetlistDocument.read? text with
  | none => .error .malformed
  | some doc => doc.toDesign

def NetlistFault.message : NetlistFault → String
  | .unreadable reason => "failed to read netlist: " ++ reason
  | .malformed => "failed to parse netlist: the text is not a netlist"
  | .unknownTop name => "top module '" ++ name ++ "' is not defined in the netlist"

end ClockTree
