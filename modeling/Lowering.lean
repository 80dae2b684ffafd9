import Lowering.Cli.MemoryFiles
import Lowering.IR.Decode
import Lowering.Main
import Lowering.Proofs.Body.Reconcile
import Lowering.Proofs.Body.Store
import Lowering.Proofs.Checking.Accepts
import Lowering.Proofs.Function.Returning
import Lowering.Proofs.Function.Unambiguous
import Lowering.Proofs.IR.Canonical
import Lowering.Proofs.Machine.Bounds
import Lowering.Proofs.Machine.Replacing
import Lowering.Proofs.Machine.Termination
import Lowering.Proofs.Meaning.Casts
import Lowering.Proofs.Source.Position
import Lowering.Proofs.Tree.RoundTrip
import Lowering.Proofs.Types.Showing
import Lowering.Proofs.Unit.Agreement
import Lowering.Proofs.Unit.Cells
import Lowering.Proofs.Unit.Clones
import Lowering.Proofs.Unit.HighBits
import Lowering.Proofs.Unit.Isolation
import Lowering.Proofs.Unit.Represent
