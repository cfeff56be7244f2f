import RegIR.Main
import RegIR.Proofs.Frame.Isolation
import RegIR.Proofs.Frame.Saved
import RegIR.Proofs.Select.Errors
import RegIR.Proofs.Select.Stack
import RegIR.Proofs.Storage.Substitution
import RegIR.Proofs.Select.Faults
import RegIR.Proofs.Select.Labels
import RegIR.Proofs.Build.Blocks
import RegIR.Proofs.Build.Command
import RegIR.Proofs.Build.Targets
import RegIR.Proofs.Build.Fresh
import RegIR.Proofs.Select.Wiring
import RegIR.Proofs.Build.Bookkeeping
import RegIR.Proofs.Select.Encoding
import RegIR.Proofs.Storage.Renaming
import RegIR.Proofs.Select.Renaming
import RegIR.Proofs.Json.Lexing
import RegIR.Proofs.Json.Reading
import RegIR.Proofs.Json.Fields
import RegIR.Proofs.Json.RoundTrip
import RegIR.Proofs.Build.Coherent
import RegIR.Proofs.Build.Sessions
import RegIR.Proofs.Frame.Places
import RegIR.Proofs.Select.Values
import RegIR.Proofs.Select.Computes
import RegIR.Proofs.Select.Decides
import RegIR.Proofs.Select.Divides
import RegIR.Proofs.Select.Words
import RegIR.Proofs.X86.Trace
import RegIR.Proofs.Select.Transfers
import RegIR.Proofs.Select.Indexes
import RegIR.Proofs.Select.Calls
import RegIR.Proofs.Ty.Natural
import RegIR.Proofs.Build.Folding
import RegIR.Proofs.Frame.Arithmetic
import RegIR.Proofs.Frame.Tenants
import RegIR.Proofs.Build.Quotients
import RegIR.Proofs.Storage.Numbering
import RegIR.Proofs.Text.Escapes
import RegIR.Proofs.X86.Printing
