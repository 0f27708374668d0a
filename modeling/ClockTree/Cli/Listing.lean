import ClockTree.Json.Value
import ClockTree.Session.Basic

/-!
# Listing clocks

A clock is listed with its period, frequency, wave, origin and wires, in a table or as a document.
-/
namespace ClockTree.Cli
open Number

def padEnd (width : Nat) (s : String) : String :=
  s ++ String.ofList (List.replicate (width - s.length) ' ')

def padStart (width : Nat) (s : String) : String :=
  String.ofList (List.replicate (width - s.length) ' ') ++ s

structure Row where
  name : String
  period : String
  frequency : String
  wave : String
  origin : String
  wires : String

namespace Row

def header : Row := ⟨"NAME", "PERIOD", "FREQUENCY", "WAVEFORM", "ORIGIN", "WIRES"⟩

def ofClock (d : Design) (c : Clock) : Row where
  name := c.name
  period := display c.wave.period
  frequency := c.frequency.text
  wave := "\x7b" ++ display c.wave.rise ++ " " ++ display c.wave.fall ++ "\x7d"
  origin := match c.parent? with
    | some parent => "<- " ++ parent
    | none => "explicit"
  wires := " ".intercalate (d.paths c.wires)

def text (nameWidth : Nat) (r : Row) : String :=
  "  ".intercalate [padEnd nameWidth r.name, padStart 10 r.period, padStart 10 r.frequency,
    padEnd 15 r.wave, padEnd 9 r.origin, r.wires] ++ "\n"

end Row

def table (d : Design) (clocks : List Clock) : String :=
  let rows := Row.header :: clocks.map (Row.ofClock d)
  let width := (rows.map (·.name.utf8ByteSize)).foldl max 0
  String.join (rows.map (Row.text width))

def clockJson (d : Design) (c : Clock) : Json :=
  .obj [
    ("name", .str c.name),
    ("period_ns", .real c.wave.period),
    ("frequency", .str c.frequency.text),
    ("waveform", .arr [.real c.wave.rise, .real c.wave.fall]),
    ("generated", .bool c.isGenerated),
    ("parent", Json.ofOption .str c.parent?),
    ("wires", Json.strings (d.paths c.wires))]

def listing (d : Design) (clocks : List Clock) : String :=
  (Json.arr (clocks.map (clockJson d))).indented ++ "\n"

end ClockTree.Cli
