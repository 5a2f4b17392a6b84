import Guion.Scope.Listing
import Guion.Proofs.Growth
import Guion.Proofs.Encapsulation
import Guion.Proofs.WellFormed
import Guion.Proofs.Depth
import Guion.Proofs.Limit
import Guion.Proofs.Matching
import Guion.Proofs.Simulation
import Guion.Proofs.Simulation.Trees
import Guion.Proofs.UnusedNames
import Guion.Proofs.Pieces
import Guion.Proofs.Showing
import Guion.Proofs.Simulation.Sessions
import Guion.Proofs.Embedding
import Guion.Proofs.Isolation
import Guion.Proofs.Spacing
import Guion.Proofs.Alphabet
import Guion.Proofs.Grammar.Total
import Guion.Proofs.Unreached
import Guion.Proofs.Cycles
import Guion.Proofs.Conversion
import Guion.Proofs.Mapping
import Guion.Proofs.Observers
import Guion.Proofs.ReadBack
import Guion.Proofs.Whole.Sessions
import Guion.Proofs.Quotation
