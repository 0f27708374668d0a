import ClockTree.Cli.Folder
import ClockTree.Main
import ClockTree.Interchange.Records
import ClockTree.Store.Numbered
import ClockTree.Store.NameTable
import ClockTree.Proofs.Propagation.Fuel
import ClockTree.Proofs.Propagation.History
import ClockTree.Proofs.Propagation.Declarations
import ClockTree.Proofs.Propagation.Frame
import ClockTree.Proofs.Propagation.Closure
import ClockTree.Proofs.Propagation.Ancestry
import ClockTree.Proofs.Command.Provenance
import ClockTree.Proofs.Command.Isolation
import ClockTree.Proofs.Propagation.SinglePass
import ClockTree.Proofs.Propagation.Reachability
import ClockTree.Proofs.Netlist.Resolution
import ClockTree.Proofs.Netlist.Ownership
import ClockTree.Proofs.Netlist.Integrity
import ClockTree.Proofs.Session.Configuration
import ClockTree.Proofs.Session.DeclarationLine
import ClockTree.Proofs.Session.ExceptionLines
import ClockTree.Proofs.Session.Omissions
import ClockTree.Proofs.Session.PrintedWaves
import ClockTree.Proofs.Script.Quoting
import ClockTree.Proofs.Script.Agreement
import ClockTree.Proofs.Cli.Gate
import ClockTree.Proofs.Registry.Listing
import ClockTree.Proofs.Registry.Commutation
import ClockTree.Proofs.Registry.Parentage
import ClockTree.Proofs.Propagation.Bound
import ClockTree.Proofs.Propagation.Takeover
import ClockTree.Proofs.Propagation.NameSearch
import ClockTree.Proofs.Command.ClockSelection
import ClockTree.Proofs.Netlist.Divisors
import ClockTree.Proofs.Rule.Validity
import ClockTree.Proofs.Number.Canonical
import ClockTree.Proofs.Source.Lines
import ClockTree.Proofs.Config.Accepted
