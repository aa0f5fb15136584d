import Unification.Var
import Unification.Sorted
import Unification.Mode
import Unification.Term.Basic
import Unification.Term.Subst
import Unification.Term.Tree
import Unification.Layer
import Unification.Symbol
import Unification.Store.Config
import Unification.Store.Basic
import Unification.Store.Transaction
import Unification.Event
import Unification.Failure
import Unification.Script.Basic
import Unification.Script.Run
import Unification.Store.Metered
import Unification.Walk
import Unification.Reach
import Unification.Unify
import Unification.Sharing
import Unification.Resolve
import Unification.RenameApart
import Unification.Compare
import Unification.Subsume
import Unification.Text.Quoted
import Unification.Text.Written
import Unification.Text.Message
import Unification.Text.Json
import Unification.Text.Config
import Unification.Operation
import Unification.Session.Command
import Unification.Session.Run
import Unification.Proofs.Term
import Unification.Proofs.Dependency
import Unification.Proofs.Resolved
import Unification.Proofs.Unfolding
import Unification.Proofs.Rewriting
import Unification.Proofs.Contract
import Unification.Proofs.Faithful
import Unification.Proofs.Confined
import Unification.Proofs.Walk
import Unification.Proofs.Search
import Unification.Proofs.Unify.Faithful
import Unification.Proofs.Unify.Confined
import Unification.Proofs.Unify.Relaxed
import Unification.Proofs.Unify.Correctness
import Unification.Proofs.Transaction.Snapshots
import Unification.Proofs.Transaction.Atomic
import Unification.Proofs.Prune
import Unification.Proofs.Unify.Acyclic
import Unification.Proofs.Memo
import Unification.Proofs.Compare
import Unification.Proofs.Congruence
import Unification.Proofs.Fuel
import Unification.Proofs.Termination
import Unification.Proofs.Equations
import Unification.Proofs.Roots
import Unification.Proofs.Mirrors
import Unification.Proofs.Agreement
import Unification.Proofs.Unify.Symmetric
import Unification.Proofs.Among
import Unification.Proofs.Rank
import Unification.Proofs.Unify.Blame
import Unification.Proofs.Unify.Ranked
import Unification.Proofs.Forwarding
import Unification.Proofs.Reading
import Unification.Proofs.Chains
import Unification.Proofs.Unify.Entailed
import Unification.Proofs.Unify.Enclosed
import Unification.Proofs.Unify.Linking
import Unification.Proofs.Unify.Simulated
import Unification.Proofs.Unify.Variants
import Unification.Proofs.Expansion
import Unification.Proofs.Resolution
import Unification.Proofs.Transaction.Closed
import Unification.Proofs.Transaction.Allocation
import Unification.Proofs.Settled
import Unification.Proofs.Equality
import Unification.Proofs.Variant
import Unification.Proofs.Matching
import Unification.Proofs.Reachability
import Unification.Proofs.RenameApart.Embedding
import Unification.Proofs.RenameApart.Copied
import Unification.Proofs.RenameApart.Copying
import Unification.Proofs.RenameApart.Exact
import Unification.Proofs.Footprint
import Unification.Proofs.Compression
import Unification.Proofs.Indifference
import Unification.Proofs.Unify.Located
import Unification.Proofs.Unify.Sharing
import Unification.Proofs.Traversal
