import BranchBound.Main
import BranchBound.Proofs.Search.Exactness
import BranchBound.Proofs.Simplex.Termination
import BranchBound.Tableau.Given
import BranchBound.Proofs.Search.Leaves
import BranchBound.Proofs.Binary64
import BranchBound.Proofs.Search.Depth
import BranchBound.Proofs.Search.Budget
import BranchBound.Proofs.Search.Mirror
import BranchBound.Proofs.Search.Gap
import BranchBound.Proofs.Simplex.Tolerance
import BranchBound.Proofs.Simplex.Unlimited
import BranchBound.Proofs.Simplex.PivotCount
import BranchBound.Proofs.Search.Dialogue
import BranchBound.Proofs.Search.Monotone
import BranchBound.Proofs.Search.Ranking
import BranchBound.Proofs.Search.Turns
import BranchBound.Proofs.Search.BestFirst
import BranchBound.Proofs.Simplex.Course
import BranchBound.Proofs.Simplex.ReportedValue
import BranchBound.Proofs.Simplex.InitialBasis
import BranchBound.Proofs.Answering
import BranchBound.Proofs.Search.Failures
import BranchBound.Proofs.Search.LifeCycle
import BranchBound.Proofs.Search.Tally
import BranchBound.Proofs.Search.FirstBest
import BranchBound.Proofs.Search.FrontierOrder
import BranchBound.Proofs.Search.Snapshots
import BranchBound.Proofs.Interleaving
import BranchBound.Proofs.Wire.RoundTrip
import BranchBound.Proofs.Search.BranchVariable
import BranchBound.Proofs.Tableau.Changes
import BranchBound.Proofs.Simplex.Ascent
import BranchBound.Proofs.Wire.LinearSolution
