import Routine.Formula
import Routine.Grammar
import Routine.Main
import Routine.Session
import Routine.Tree.Gap
import Routine.Tree.Yield
import Routine.Upcoming
import Routine.Proofs.Membership
import Routine.Proofs.Draining
import Routine.Proofs.Whole
import Routine.Proofs.Completeness
import Routine.Proofs.Soundness
import Routine.Proofs.Derivation
import Routine.Proofs.Viable
import Routine.Proofs.Simulation
import Routine.Proofs.History
import Routine.Proofs.Sifting
import Routine.Proofs.Gaps
import Routine.Proofs.Leaves
import Routine.Proofs.Follow
import Routine.Proofs.Patterns
import Routine.Proofs.Pieces
import Routine.Proofs.Reports
import Routine.Proofs.Lines
import Routine.Proofs.Spellings
import Routine.Proofs.Indexing
import Routine.Proofs.Relocation
import Routine.Proofs.Rendering
import Routine.Proofs.Faithful
import Routine.Proofs.Isolation
import Routine.Proofs.Lookahead
import Routine.Proofs.Repeats
import Routine.Proofs.Resumption
import Routine.Proofs.Listing
import Routine.Proofs.Indentation
import Routine.Proofs.Precedence
import Routine.Proofs.Tidy
import Routine.Proofs.Logbook
