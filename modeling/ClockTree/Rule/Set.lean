import ClockTree.Rule.Transform

/-!
# Rules for kinds of cells

A rule says on which ports a clock enters a kind of cell and which transform each output applies. A
table holds at most one rule for a kind of cell.
-/
namespace ClockTree

structure Outlet where
  port : String
  transform : Transform

structure Rule where
  kind : String
  inputs : List String
  outputs : List Outlet

namespace Rule

def entersOn (r : Rule) (port : String) : Bool := r.inputs.contains port

def uniform (kind : String) (inputs outputs : List String) (t : Transform) : Rule :=
  ⟨kind, inputs, outputs.map (⟨·, t⟩)⟩

end Rule

abbrev RuleSet := List Rule

namespace RuleSet

def get? (t : RuleSet) (kind : String) : Option Rule := t.find? (·.kind == kind)

def insert : RuleSet → Rule → RuleSet
  | [], r => [r]
  | s :: t, r => if s.kind == r.kind then r :: t else s :: insert t r

def ofRules (rules : List Rule) : RuleSet := rules.foldl insert []

def buffers : RuleSet :=
  let single (kind : String) := Rule.uniform kind ["I"] ["O"] .transparent
  ["BUFG", "BUFGCE", "BUFH", "BUFHCE", "BUFIO", "BUFMR", "IBUF", "IBUFG", "IBUFDS", "IBUFGDS",
    "CLKBUF"].map single ++ [
    .uniform "BUFGCTRL" ["I0", "I1"] ["O"] .transparent,
    .uniform "BUFGMUX" ["I0", "I1"] ["O"] .transparent,
    .uniform "$_BUF_" ["A"] ["Y"] .transparent,
    .uniform "$buf" ["A"] ["Y"] .transparent]

def pllRule (kind : String) : Rule :=
  ⟨kind, ["CLKIN1"], (List.range 6).map fun i => ⟨"CLKOUT" ++ toString i, .pll i⟩⟩

def dividers : RuleSet :=
  [.uniform "BUFR" ["I"] ["O"] (.byParameter "BUFR_DIVIDE" none),
    .uniform "CLKDIV" ["CLK"] ["Q"] (.byParameter "DIVISOR" (some "INVERT")),
    .uniform "$_NOT_" ["A"] ["Y"] .inverter,
    .uniform "$not" ["A"] ["Y"] .inverter,
    .uniform "INV" ["I"] ["O"] .inverter]
    ++ ["PLLE2_ADV", "PLLE2_BASE", "MMCME2_ADV", "MMCME2_BASE"].map pllRule

end RuleSet
end ClockTree
