import Timetable.BucketQueue
import Timetable.Catalogue
import Timetable.CommandLine
import Timetable.Main
import Timetable.Schedule.BatchEdit
import Timetable.Schedule.FrontierInsert
import Timetable.Schedule.RangeInsert
import Timetable.Schedule.Terminal
import Timetable.TokenError
import Timetable.Proofs.Merge.Singles
import Timetable.Proofs.Partition.Reassembly
import Timetable.Proofs.Reach.Exact
import Timetable.Proofs.Reach.Resumed
import Timetable.Proofs.Schedule.EarliestLevel
import Timetable.Proofs.Schedule.Interchange
import Timetable.Proofs.Schedule.Rebuild
import Timetable.Proofs.Schedule.Edit
import Timetable.Proofs.Schedule.BehindFrontier
import Timetable.Proofs.Schedule.Placement
import Timetable.Proofs.Schedule.ResourceOrder
import Timetable.Proofs.Queue.Arrivals
import Timetable.Proofs.Slot.Made
import Timetable.Proofs.Schedule.NestedMatch
import Timetable.Proofs.Schedule.EarliestStep
import Timetable.Proofs.Partition.LeastFirst
import Timetable.Proofs.Schedule.BatchOrder
import Timetable.Proofs.Queue.Related
import Timetable.Proofs.Queue.Served
import Timetable.Proofs.Partition.FactorBuild
import Timetable.Proofs.Merge.Fold
import Timetable.Proofs.Merge.Mirror
import Timetable.Proofs.Schedule.Acceptance
import Timetable.Proofs.Schedule.Overruled
import Timetable.Proofs.Resource.RoundTrip
import Timetable.Proofs.Renaming.Answers
import Timetable.Proofs.Renaming.Back
import Timetable.Proofs.Selection.CutOff
import Timetable.Proofs.Nesting.Refused
import Timetable.Proofs.Nesting.Equality
import Timetable.Proofs.Workload.Grounded
import Timetable.Proofs.Selection.Windows
import Timetable.Proofs.Selection.Nearest
import Timetable.Proofs.Merge.Collision
import Timetable.Proofs.Schedule.EarliestLanding
import Timetable.Proofs.Schedule.Overtaking
import Timetable.Proofs.Schedule.RangeOverflow
import Timetable.Proofs.Frontier.RoundTrip
import Timetable.Proofs.Schedule.Joining
import Timetable.Proofs.Schedule.KeysByResource
import Timetable.Proofs.Merge.Seam
import Timetable.Proofs.Partition.Calls
import Timetable.Proofs.Merge.KeysByResource
