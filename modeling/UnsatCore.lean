import UnsatCore.Extraction
import UnsatCore.Families.Pigeonhole
import UnsatCore.Families.Signings
import UnsatCore.Proofs.Balance
import UnsatCore.Proofs.Checking
import UnsatCore.Proofs.Consistency
import UnsatCore.Proofs.Counting
import UnsatCore.Proofs.Detours
import UnsatCore.Proofs.Enumeration
import UnsatCore.Proofs.Exhaustion
import UnsatCore.Proofs.Explanation
import UnsatCore.Proofs.Handles
import UnsatCore.Proofs.Independence
import UnsatCore.Proofs.Irrelevance
import UnsatCore.Proofs.Loading
import UnsatCore.Proofs.Loops
import UnsatCore.Proofs.Partition
import UnsatCore.Proofs.Pigeonhole
import UnsatCore.Proofs.Propagation
import UnsatCore.Proofs.Reference
import UnsatCore.Proofs.Renaming
import UnsatCore.Proofs.Repetition
import UnsatCore.Proofs.Reversal
import UnsatCore.Proofs.Stamping
import UnsatCore.Proofs.Tally
import UnsatCore.Proofs.Tolerance
import UnsatCore.Semantics.Assignment
import UnsatCore.Semantics.Closure
import UnsatCore.Semantics.Enumeration
