import StackGraph.Diagram
import StackGraph.Session.Numbering
import StackGraph.Proofs.MergeHistories
import StackGraph.Proofs.MergeLaws
import StackGraph.Proofs.MergeRefinement
import StackGraph.Proofs.HonestMemos
import StackGraph.Proofs.TreeEquality
import StackGraph.Proofs.PlainNodes
import StackGraph.Proofs.OperandReuse
import StackGraph.Proofs.PoolSteps
import StackGraph.Proofs.CanonicalPools
import StackGraph.Proofs.StablePools
import StackGraph.Proofs.Maintenance
import StackGraph.Proofs.FineNodes
import StackGraph.Proofs.FineMerging
import StackGraph.Proofs.FineSharing
import StackGraph.Proofs.FineSessions
import StackGraph.Merge.Checked
import StackGraph.Pool.Checked
import StackGraph.Proofs.CheckedMerging
import StackGraph.Proofs.CheckedSharing
import StackGraph.Proofs.Totality
import StackGraph.Proofs.MergeRuns
import StackGraph.Proofs.Coalescing
import StackGraph.Proofs.StoredOnce
import StackGraph.Proofs.MemoLedgers
import StackGraph.Proofs.ModeConflicts
import StackGraph.Proofs.MixedModes
import StackGraph.Proofs.SharedMemos
import StackGraph.Proofs.MisusedTrails
import StackGraph.Proofs.InternedAncestry
import StackGraph.Proofs.Insertions
import StackGraph.Proofs.InsertedOnce
import StackGraph.Proofs.CallStacks
import StackGraph.Proofs.StateNumbers
import StackGraph.Proofs.Renaming
