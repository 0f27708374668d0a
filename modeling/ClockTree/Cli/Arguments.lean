/-!
# Command line arguments

A command line names a subcommand, a netlist and scripts. Some options are accepted on both sides of
the subcommand, and the one behind it counts. An option is given at most once on each side.
-/
namespace ClockTree.Cli

inductive Coloring where
  | auto
  | always
  | never
deriving DecidableEq, Repr

inductive Format where
  | text
  | json
deriving DecidableEq, Repr

inductive Subcommand where
  | write (output : Option String) (includeGenerated : Bool)
  | clocks (filter : Option String)
deriving DecidableEq, Repr

structure Invocation where
  quiet : Bool
  verbose : Bool
  color : Coloring
  config : Option String
  netlist : String
  scripts : List String
  propagate : Bool
  format : Format
  subcommand : Subcommand
deriving DecidableEq, Repr

inductive Stop where
  | help
  | version
  | usage
deriving DecidableEq, Repr

inductive Setting where
  | quiet
  | verbose
  | color
  | config
  | help
  | version
  | noPropagate
  | format
  | output
  | includeGenerated
  | filter
deriving DecidableEq, Repr

namespace Setting

def long : Setting → String
  | .quiet => "quiet"
  | .verbose => "verbose"
  | .color => "color"
  | .config => "config"
  | .help => "help"
  | .version => "version"
  | .noPropagate => "no-propagate"
  | .format => "format"
  | .output => "output"
  | .includeGenerated => "include-generated"
  | .filter => "filter"

def short? : Setting → Option Char
  | .quiet => some 'q'
  | .verbose => some 'v'
  | .help => some 'h'
  | .version => some 'V'
  | .format => some 'f'
  | .output => some 'o'
  | _ => none

def takesValue : Setting → Bool
  | .color | .config | .format | .output | .filter => true
  | _ => false

def allows : Setting → String → Bool
  | .color, v => ["auto", "always", "never"].contains v
  | .format, v => ["text", "json"].contains v
  | .output, v => v != ""
  | _, _ => true

def shared : List Setting := [.quiet, .verbose, .color, .config, .help]

def ofWrite : List Setting := shared ++ [.noPropagate, .format, .output, .includeGenerated]

def ofClocks : List Setting := shared ++ [.noPropagate, .format, .filter]

end Setting

structure Given where
  options : List (Setting × String) := []
  words : List String := []

namespace Given

def value? (g : Given) (s : Setting) : Option String := g.options.lookup s

def has (g : Given) (s : Setting) : Bool := (g.value? s).isSome

def add (g : Given) (s : Setting) (value : String) : Except Stop Given :=
  if s = .help then .error .help
  else if s = .version then .error .version
  else if g.has s || !s.allows value then .error .usage
  else .ok { g with options := g.options ++ [(s, value)] }

def addWord (g : Given) (w : String) : Except Stop Given :=
  if w = "" then .error .usage else .ok { g with words := g.words ++ [w] }

/-- An option by its long name; its value may follow an equals sign. Returns the option if its value
is still to come. -/
def addLong (settings : List Setting) (g : Given) (cs : List Char) :
    Except Stop (Given × Option Setting) :=
  let (name, rest) := cs.span (· != '=')
  match settings.find? fun s => s.long == String.ofList name with
  | none => .error .usage
  | some s => match rest, s.takesValue with
    | [], true => .ok (g, some s)
    | [], false => (g.add s "").map (·, none)
    | _ :: value, true => (g.add s (String.ofList value)).map (·, none)
    | _ :: _, false => .error .usage

def addShort (settings : List Setting) (g : Given) :
    List Char → Except Stop (Given × Option Setting)
  | [] => .ok (g, none)
  | c :: cs => match settings.find? fun s => s.short? == some c with
    | none => .error .usage
    | some s =>
      if s.takesValue then match cs with
        | [] => .ok (g, some s)
        | '=' :: value => (g.add s (String.ofList value)).map (·, none)
        | value => (g.add s (String.ofList value)).map (·, none)
      else match g.add s "" with
        | .ok g => addShort settings g cs
        | .error e => .error e

end Given

inductive Awaiting where
  | anything
  | value (s : Setting)
  | words

def Awaiting.next : Option Setting → Awaiting
  | some s => .value s
  | none => .anything

def readArguments (settings : List Setting) (beforeSubcommand : Bool) :
    Given → Awaiting → List String → Except Stop (Given × List String)
  | _, .value _, [] => .error .usage
  | g, _, [] => .ok (g, [])
  | g, awaiting, a :: as => match awaiting, a.toList with
    | .words, _ => match g.addWord a with
      | .ok g => readArguments settings beforeSubcommand g .words as
      | .error e => .error e
    | .anything, ['-', '-'] =>
      if beforeSubcommand then .error .usage
      else readArguments settings beforeSubcommand g .words as
    | .anything, '-' :: '-' :: cs => match g.addLong settings cs with
      | .ok (g, s) => readArguments settings beforeSubcommand g (.next s) as
      | .error e => .error e
    | .anything, '-' :: c :: cs => match g.addShort settings (c :: cs) with
      | .ok (g, s) => readArguments settings beforeSubcommand g (.next s) as
      | .error e => .error e
    | .anything, _ =>
      if beforeSubcommand then .ok (g, a :: as)
      else match g.addWord a with
        | .ok g => readArguments settings beforeSubcommand g .anything as
        | .error e => .error e
    | .value _, '-' :: _ :: _ => .error .usage
    | .value s, _ => match g.add s a with
      | .ok g => readArguments settings beforeSubcommand g .anything as
      | .error e => .error e

def Given.invocation (before behind : Given) (subcommand : Subcommand) : Except Stop Invocation :=
  let either (s : Setting) := behind.value? s <|> before.value? s
  match behind.words with
  | [] => .error .usage
  | netlist :: scripts => .ok {
      quiet := (either .quiet).isSome
      verbose := (either .verbose).isSome
      color := match either .color with
        | some "always" => .always
        | some "never" => .never
        | _ => .auto
      config := either .config
      netlist
      scripts
      propagate := !behind.has .noPropagate
      format := if behind.value? .format = some "json" then .json else .text
      subcommand }

def Invocation.ofArguments (args : List String) : Except Stop Invocation := do
  match ← readArguments (.version :: Setting.shared) true {} .anything args with
  | (before, "write" :: args) =>
    let (behind, _) ← readArguments Setting.ofWrite false {} .anything args
    before.invocation behind (.write (behind.value? .output) (behind.has .includeGenerated))
  | (before, "clocks" :: args) =>
    let (behind, _) ← readArguments Setting.ofClocks false {} .anything args
    before.invocation behind (.clocks (behind.value? .filter))
  | (_, ["help"]) | (_, ["help", "write"]) | (_, ["help", "clocks"]) => .error .help
  | _ => .error .usage

end ClockTree.Cli
