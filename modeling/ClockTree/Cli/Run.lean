import ClockTree.Cli.Arguments
import ClockTree.Cli.Job
import ClockTree.Cli.Listing
import ClockTree.Command.Script
import ClockTree.Config.Reader
import ClockTree.Diagnostic.Layout
import ClockTree.Netlist.Document
import ClockTree.Writer.Document

/-!
# Running an invocation

Both subcommands read the configuration and the netlist, declare the configured clocks, run the
scripts and propagate. Then one writes the constraints, unless something failed, and the other lists
the clocks; diagnostics and a summary follow. The exit code is one if anything failed.
-/
namespace ClockTree.Cli

structure Surroundings where
  directory : String
  colored : Bool

def configName : String := "clockwork.toml"

def readConfigFile (path shown : String) : Job Config := do
  let config := match ← Job.readFile path with
    | .error reason => .error (ConfigFault.unreadable reason)
    | .ok text => Config.read text
  Job.orFail (fun e => shown ++ ": " ++ e.message) config

def readConfig (w : Surroundings) (i : Invocation) : Job Config := do
  match i.config with
  | some path => readConfigFile path path
  | none =>
    if ← Job.isFile configName then readConfigFile configName (w.directory ++ "/" ++ configName)
    else return {}

def readNetlist (i : Invocation) : Job Design := do
  let design := match ← Job.readFile i.netlist with
    | .error reason => .error (NetlistFault.unreadable reason)
    | .ok text => Design.read text
  Job.orFail (fun e => i.netlist ++ ": " ++ e.message) design

def note (i : Invocation) (line : String) : Job Unit := if i.quiet then pure () else Job.tell line

structure Progress where
  session : Session
  sources : SourceSet := {}
  configured : Nat := 0
  scripts : ScriptReport := {}
  propagation : Option PropagationReport := none

def Progress.runScript (p : Progress) (path : String) : Job Progress := do
  let text ← Job.orFail (fun reason => "could not read " ++ path ++ ": " ++ reason)
    (← Job.readFile path)
  let (file, sources) := p.sources.add ⟨path, text⟩
  let (session, summary) := p.session.runScript file text
  return { p with
    session, sources
    scripts := ⟨p.scripts.commands + summary.commands, p.scripts.failed + summary.failed,
      p.scripts.skipped + summary.skipped⟩ }

def Progress.propagate (p : Progress) (i : Invocation) : Job Progress := do
  if !i.propagate then return p
  else if p.session.clocks.isEmpty then
    note i "warning: no clocks declared, skipping propagation"
    return p
  else
    let (summary, session) ← Job.orFail Fault.message p.session.propagate
    return { p with session, propagation := some summary }

def constrain (i : Invocation) (config : Config) (session : Session) : Job Progress := do
  let (session, declared) := session.declareAll config.clocks
  let configured ← Job.orFail Fault.message declared
  let p ← i.scripts.foldlM Progress.runScript { session, configured }
  p.propagate i

namespace Progress

def failed (p : Progress) : Bool := p.session.log.sawError || 0 < p.scripts.failed

def exitCode (p : Progress) : Nat := if p.failed then 1 else 0

def floor (i : Invocation) : Severity :=
  if i.quiet then .error else if i.verbose then .help else .warning

def report (p : Progress) (w : Surroundings) (i : Invocation) : Job Unit :=
  let shown := p.session.log.held.filter fun d => (floor i).rank ≤ d.severity.rank
  let colored := match i.color with
    | .auto => w.colored
    | .always => true
    | .never => false
  match i.format with
  | .text => shown.forM fun d => Job.tell (d.render colored p.sources)
  | .json => Job.tell (Json.arr (shown.map Diagnostic.toJson)).indented

def summarize (p : Progress) (i : Invocation) : Job Unit := do
  note i ("   Applied " ++ toString p.configured ++ " configured clock(s), "
    ++ toString p.scripts.commands ++ " command(s), " ++ toString p.scripts.failed ++ " failed, "
    ++ toString p.scripts.skipped ++ " skipped")
  match p.propagation with
  | some s => note i ("   Propagated " ++ toString s.generated ++ " generated clock(s)")
  | none => pure ()
  note i ("   Result: " ++ toString p.session.log.errors ++ " error(s), "
    ++ toString p.session.log.warnings ++ " warning(s)")

def finish (p : Progress) (w : Surroundings) (i : Invocation) : Job Nat := do
  p.report w i
  p.summarize i
  return p.exitCode

def write (p : Progress) (i : Invocation) (output : Option String) (includeGenerated : Bool) :
    Job Progress := do
  let (written, session) := p.session.write includeGenerated
  match output with
  | some path =>
    Job.orFail id (← Job.createFile path written.text)
    note i ("   Writing " ++ path)
  | none => Job.print written.text
  note i ("   Wrote " ++ toString written.clocks ++ " clock(s), " ++ toString written.exceptions
    ++ " exception(s), " ++ toString written.skipped ++ " skipped")
  match p.propagation.bind (·.delayTarget) with
  | some t => note i ("   Delay target: " ++ toString t.picoseconds ++ " ps")
  | none => pure ()
  return { p with session }

def listed (p : Progress) (filter : Option String) : Except Fault (List Clock) :=
  if p.session.clocks.isEmpty then .ok []
  else (p.session.lookUp filter.toList true none).2

end Progress

def run (w : Surroundings) (i : Invocation) : Job Nat := do
  let config ← readConfig w i
  let design ← readNetlist i
  match i.subcommand with
  | .write output includeGenerated =>
    note i ("   Reading " ++ i.netlist ++ " (" ++ toString design.totalCells ++ " cell(s))")
    let p ← constrain i config
      { design, engine := config.engine, options := config.options }
    let p ← if p.failed then pure p
      else p.write i output (includeGenerated || config.options.includeGenerated)
    p.finish w i
  | .clocks filter =>
    let p ← constrain i config { design, engine := config.engine }
    let clocks ← Job.orFail Fault.message (p.listed filter)
    Job.print (match i.format with
      | .text => table design clocks
      | .json => listing design clocks)
    p.finish w i

def versionText : String := "clockwork 0.1.0\n"

def usageText : String :=
  "Usage: clockwork [OPTIONS] <write|clocks> [OPTIONS] <NETLIST> [SCRIPTS]...\n"

def runArguments (w : Surroundings) (args : List String) : Job Nat :=
  match Invocation.ofArguments args with
  | .ok i => run w i
  | .error .help => .out usageText (.done 0)
  | .error .version => .out versionText (.done 0)
  | .error .usage => .err usageText (.done 2)

end ClockTree.Cli
