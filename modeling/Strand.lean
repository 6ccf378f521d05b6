import Strand.Binary64.Hex
import Strand.Builder.Script
import Strand.Value.Describe
import Strand.Session
import Strand.Proofs.Interleaving
import Strand.Proofs.Accounting
import Strand.Proofs.Pool
import Strand.Proofs.Exclusion
import Strand.Proofs.Counter
import Strand.Proofs.Isolation
import Strand.Proofs.Return
import Strand.Proofs.Typing
import Strand.Proofs.Scope.Delivery
import Strand.Proofs.Scope.Runs
import Strand.Proofs.Closed.Runs
import Strand.Proofs.Objects
import Strand.Proofs.Returns.Statements
import Strand.Proofs.Widening
import Strand.Proofs.ForkJoin.Refinement
import Strand.Proofs.Calls.Order
import Strand.Proofs.Elementwise
import Strand.Proofs.Solo
import Strand.Proofs.Origin
import Strand.Proofs.Confined.Activations
import Strand.Proofs.Endless
import Strand.Proofs.Unfolding
import Strand.Proofs.Product
import Strand.Proofs.Equality
import Strand.Proofs.Places
import Strand.Proofs.ReadBack
import Strand.Proofs.Calls.Fields
import Strand.Proofs.Integers
import Strand.Proofs.Interning
import Strand.Proofs.Floats.Text
import Strand.Proofs.Lines
import Strand.Proofs.Storage
