import MpmcMap.Reclaim.EpochSafety
import MpmcMap.Reclaim.HazardScan
import MpmcMap.Reclaim.HazardHandover
import MpmcMap.Reclaim.HazardCell
import MpmcMap.Reclaim.Accounting
import MpmcMap.Reclaim.HazardKept
import MpmcMap.Reclaim.EpochPump
import MpmcMap.Ordered.Sequential
import MpmcMap.Ordered.Traversal
import MpmcMap.Unordered.Traversal
import MpmcMap.Unordered.Shortcut
import MpmcMap.Unordered.Visits
import MpmcMap.Unordered.Reserve
import MpmcMap.Unordered.LoadFactor
import MpmcMap.Reclaim.Pool
import MpmcMap.Unordered.Unlinked
import MpmcMap.Maps.Size
import MpmcMap.Maps.Values
import MpmcMap.Maps.EraseAt
import MpmcMap.Unordered.Intervals
import MpmcMap.Unordered.Mixing
import MpmcMap.Ordered.FreeSubtree
import MpmcMap.Ordered.Audit
import MpmcMap.Maps.Index
import MpmcMap.Maps.Counts
import MpmcMap.Maps.Rollback
import MpmcMap.Maps.Lifetimes
import MpmcMap.Unordered.Iteration
import MpmcMap.Ordered.Iteration
import MpmcMap.Ordered.Discipline
import MpmcMap.Unordered.HeldUp
import MpmcMap.Unordered.Standing
import MpmcMap.Unordered.Linearizable
