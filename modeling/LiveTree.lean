import LiveTree.Inspect
import LiveTree.Main
import LiveTree.Script.Run
import LiveTree.Proofs.Store.WellFormed
import LiveTree.Proofs.Form.Alike
import LiveTree.Proofs.Keeping
import LiveTree.Proofs.Store.Sealed
import LiveTree.Proofs.Form.Copy
import LiveTree.Proofs.Tree.Capture
import LiveTree.Proofs.Tree.Guarded
import LiveTree.Proofs.Tree.Operation
import LiveTree.Proofs.Tree.Rollback
import LiveTree.Proofs.Tree.Independence
import LiveTree.Proofs.Form.Written
import LiveTree.Proofs.Form.Equality
import LiveTree.Proofs.Form.Payload
import LiveTree.Proofs.Form.RoundTrip
import LiveTree.Proofs.Form.Schema
import LiveTree.Proofs.Form.Acceptance
import LiveTree.Proofs.Form.Settled
import LiveTree.Proofs.Form.Stable
import LiveTree.Proofs.Form.Matched
import LiveTree.Proofs.Form.Equated
import LiveTree.Proofs.Form.Equivalence
import LiveTree.Proofs.Form.Faithful
import LiveTree.Proofs.Eval.Follows
import LiveTree.Proofs.Eval.Holder
import LiveTree.Proofs.Eval.Operators
import LiveTree.Proofs.Eval.Paths
import LiveTree.Proofs.Tree.Below
import LiveTree.Proofs.Tree.References
import LiveTree.Proofs.Tree.Arising
import LiveTree.Proofs.Tree.Announcement
import LiveTree.Proofs.Tree.Revision
import LiveTree.Proofs.Tree.ByPath
import LiveTree.Proofs.Mirroring
import LiveTree.Proofs.Tree.Mirror
import LiveTree.Proofs.Tree.Course
import LiveTree.Proofs.Tree.Held
import LiveTree.Proofs.Tree.Steady
import LiveTree.Proofs.Tree.Gathering
import LiveTree.Proofs.Tree.Batch
import LiveTree.Proofs.Tree.Programs
import LiveTree.Proofs.Eval.Levels
import LiveTree.Proofs.Runs.Tame
import LiveTree.Proofs.Store.Later
import LiveTree.Proofs.Runs.Related
import LiveTree.Proofs.Runs.Correspondence
import LiveTree.Proofs.Runs.Operators
import LiveTree.Proofs.Runs.Paths
import LiveTree.Proofs.Runs.Single
import LiveTree.Proofs.Runs.Mates
import LiveTree.Proofs.Runs.Parallel
import LiveTree.Proofs.Eval.ArgumentOrder
import LiveTree.Proofs.Tree.ArgumentHistory
import LiveTree.Proofs.Tree.Handing
import LiveTree.Proofs.Runs.Hosted
import LiveTree.Proofs.Tree.Subtree
import LiveTree.Proofs.Reads.Retaining
import LiveTree.Proofs.Reads.Echo
import LiveTree.Proofs.Reads.Repeated
import LiveTree.Proofs.Reads.Visits
import LiveTree.Proofs.Reads.Grounded
import LiveTree.Proofs.Reads.Again
import LiveTree.Proofs.Eval.ChildSteps
import LiveTree.Proofs.Runs.Calm
import LiveTree.Proofs.Reads.Seats
import LiveTree.Proofs.Reads.SeatRuns
import LiveTree.Proofs.Reads.Verdicts
import LiveTree.Proofs.Reads.Browsing
import LiveTree.Proofs.Reads.Everywhere
import LiveTree.Proofs.Reads.SeatSnapshots
import LiveTree.Proofs.Reads.Composed
import LiveTree.Proofs.Eval.Circular
import LiveTree.Proofs.Tree.Anchored
import LiveTree.Proofs.Reads.FromAbove
import LiveTree.Proofs.Form.Apart
import LiveTree.Proofs.Reads.SeatReports
import LiveTree.Proofs.Reads.Copies
import LiveTree.Proofs.Reads.Clones
import LiveTree.Proofs.Tree.Kinds
import LiveTree.Proofs.Tree.Destruction
import LiveTree.Proofs.Tree.Upkeep
import LiveTree.Proofs.Eval.CallOrder
import LiveTree.Proofs.Reads.Traversals
import LiveTree.Proofs.Tree.Resetting
import LiveTree.Proofs.Eval.Negation
import LiveTree.Proofs.Tree.Filtering
import LiveTree.Proofs.Eval.Arithmetic
import LiveTree.Proofs.Tree.Chains
import LiveTree.Proofs.Eval.Loops
import LiveTree.Proofs.Eval.Marks
import LiveTree.Proofs.Eval.DeadEnds
import LiveTree.Proofs.Eval.FirstHolder
import LiveTree.Proofs.Form.Resolver
import LiveTree.Proofs.Form.Typing
import LiveTree.Proofs.Tree.Chronicle
import LiveTree.Proofs.Tree.Subscriptions
import LiveTree.Proofs.Eval.SideBySide
import LiveTree.Proofs.Reads.Siblings
import LiveTree.Proofs.Form.Twins
import LiveTree.Proofs.Eval.Comparison
import LiveTree.Proofs.Eval.Rules
import LiveTree.Proofs.Reads.ReadyRules
import LiveTree.Proofs.Eval.NumberedKeys
import LiveTree.Proofs.Eval.Ranking
import LiveTree.Proofs.Eval.Trichotomy
import LiveTree.Proofs.Project.Configuration
import LiveTree.Proofs.Reads.Sweeps
import LiveTree.Proofs.Project.Validation
import LiveTree.Proofs.Project.ModulePlaces
import LiveTree.Proofs.Tree.Recording
