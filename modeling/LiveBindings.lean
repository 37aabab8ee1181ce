import LiveBindings.Script.Inspect
import LiveBindings.Proofs.TwoWay
import LiveBindings.Proofs.Replica
import LiveBindings.Proofs.Lengths
import LiveBindings.Proofs.Cascade
import LiveBindings.Proofs.Release
import LiveBindings.Proofs.Targets
import LiveBindings.Proofs.Options
import LiveBindings.Proofs.Wire
import LiveBindings.Proofs.Failures
import LiveBindings.Proofs.PutGet
import LiveBindings.Proofs.Counts
import LiveBindings.Proofs.Buckets
import LiveBindings.Proofs.Filter
import LiveBindings.Proofs.Flatten
import LiveBindings.Proofs.Group
import LiveBindings.Proofs.GroupMap
import LiveBindings.Proofs.Rearranged
import LiveBindings.Proofs.Sorted
import LiveBindings.Proofs.Mapped
import LiveBindings.Proofs.Children
import LiveBindings.Proofs.Announcing
import LiveBindings.Proofs.Congruence
import LiveBindings.Proofs.Readings
import LiveBindings.Proofs.Grammar
import LiveBindings.Proofs.Membership
import LiveBindings.Proofs.Abandoned
import LiveBindings.Proofs.Errands
import LiveBindings.Proofs.CheckedCounts
import LiveBindings.Proofs.Trimming
import LiveBindings.Proofs.RoundTrip
import LiveBindings.Proofs.Alignment
import LiveBindings.Proofs.Precedence
import LiveBindings.Proofs.Sorting
