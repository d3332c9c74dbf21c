import LambdaMachine.Main
import LambdaMachine.Session.Basic
import LambdaMachine.Proofs.Machine.Direct
import LambdaMachine.Proofs.Machine.Trampoline
import LambdaMachine.Proofs.Machine.ReadBack
import LambdaMachine.Proofs.Machine.Plain
import LambdaMachine.Proofs.Term.Names
import LambdaMachine.Proofs.Prelude.Host
import LambdaMachine.Proofs.Prelude.Simulation
import LambdaMachine.Proofs.Program.Parsing
import LambdaMachine.Proofs.Prelude.Environment
import LambdaMachine.Proofs.Session.Turns
import LambdaMachine.Proofs.Session.Transparency
import LambdaMachine.Proofs.Text.Utf8
import LambdaMachine.Proofs.Source.Characters
import LambdaMachine.Proofs.Program.Reading
import LambdaMachine.Proofs.Program.Printing
import LambdaMachine.Proofs.Program.RoundTrip
import LambdaMachine.Proofs.Source.Scan
import LambdaMachine.Proofs.Source.Tape
import LambdaMachine.Proofs.Source.Latch
import LambdaMachine.Proofs.Program.Grammar
import LambdaMachine.Proofs.Program.Recognition
import LambdaMachine.Proofs.Command.Silence
import LambdaMachine.Proofs.Machine.Limit
import LambdaMachine.Proofs.Term.Spelled
import LambdaMachine.Proofs.Value.Layout
import LambdaMachine.Proofs.Prelude.Containment
import LambdaMachine.Proofs.Command.Result
import LambdaMachine.Proofs.Value.Scope
import LambdaMachine.Proofs.Prelude.Scope
import LambdaMachine.Proofs.Session.Scope
import LambdaMachine.Proofs.Term.Glossary
import LambdaMachine.Proofs.Value.Renaming
import LambdaMachine.Proofs.Memo.Renaming
import LambdaMachine.Proofs.Machine.Renaming
import LambdaMachine.Proofs.Prelude.Renaming
import LambdaMachine.Proofs.Command.Renaming
import LambdaMachine.Proofs.Machine.Underway
import LambdaMachine.Proofs.Prelude.Pure
import LambdaMachine.Proofs.Session.Stages
import LambdaMachine.Proofs.Session.WriteOnce
import LambdaMachine.Proofs.Value.Anchored
import LambdaMachine.Proofs.Machine.Anchored
import LambdaMachine.Proofs.Session.Arenas
import LambdaMachine.Proofs.Machine.Cacheable
import LambdaMachine.Proofs.Program.Incomplete
import LambdaMachine.Proofs.Command.Echo
import LambdaMachine.Proofs.Text.Malformed
import LambdaMachine.Proofs.Source.Decoding
import LambdaMachine.Proofs.Source.Places
import LambdaMachine.Proofs.Program.Nesting
import LambdaMachine.Proofs.Program.Offsets
import LambdaMachine.Proofs.Program.Building
import LambdaMachine.Proofs.Program.Layout
import LambdaMachine.Proofs.Machine.Assignments
import LambdaMachine.Proofs.Prelude.Blindness
import LambdaMachine.Proofs.Program.Assignments
import LambdaMachine.Proofs.Source.Supply
import LambdaMachine.Proofs.Program.Allowance
import LambdaMachine.Proofs.Program.Delivery
import LambdaMachine.Proofs.Machine.Effort
import LambdaMachine.Proofs.Prelude.Thrift
import LambdaMachine.Proofs.Session.Thrift
import LambdaMachine.Proofs.Value.Numeral
import LambdaMachine.Proofs.Machine.Achieves
import LambdaMachine.Proofs.Machine.Orderly
import LambdaMachine.Proofs.Prelude.Printer
import LambdaMachine.Proofs.Session.Ledger
import LambdaMachine.Proofs.Session.Orderly
import LambdaMachine.Proofs.Session.Printing
import LambdaMachine.Proofs.Machine.Iteration
import LambdaMachine.Proofs.Machine.Numeral
import LambdaMachine.Proofs.Value.Selection
import LambdaMachine.Proofs.Machine.Selection
import LambdaMachine.Proofs.Machine.Stored
import LambdaMachine.Proofs.Session.Consistent
import LambdaMachine.Proofs.Session.Church
import LambdaMachine.Proofs.Term.Bijection
import LambdaMachine.Proofs.Memo.History
import LambdaMachine.Proofs.Memo.Sweeping
import LambdaMachine.Proofs.Source.Rounds
import LambdaMachine.Proofs.Program.Tally
import LambdaMachine.Proofs.Program.Solvent
import LambdaMachine.Proofs.Program.Progress
import LambdaMachine.Proofs.Program.Readers
import LambdaMachine.Proofs.Prelude.Input
import LambdaMachine.Proofs.Session.Input
