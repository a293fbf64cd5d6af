import CanonC.Algo.Composition
import CanonC.Algo.Map
import CanonC.Algo.Reverse
import CanonC.Algo.Sort.Correctness
import CanonC.Core.Alignment
import CanonC.Core.Arena.Scopes
import CanonC.Core.BitCounting
import CanonC.Core.BitFields
import CanonC.Core.Overflow
import CanonC.Core.Pool.Init
import CanonC.Core.Pool.Stale
import CanonC.Core.Region.Cleanup
import CanonC.Core.Region.Validity
import CanonC.Core.Stamps
import CanonC.Data.Bitset.Queries
import CanonC.Data.Bitset.Search
import CanonC.Data.Deque.Refinement
import CanonC.Data.Dynstring.Ownership
import CanonC.Data.Dynvec.Ownership
import CanonC.Data.Hashmap.Copy
import CanonC.Data.Hashmap.Format
import CanonC.Data.PriorityQueue.Heapsort
import CanonC.Data.PriorityQueue.Refinement
import CanonC.Data.Queue
import CanonC.Data.Range.Counting
import CanonC.Data.Range.Skip
import CanonC.Data.Smallvec.AsVec
import CanonC.Data.Smallvec.Ownership
import CanonC.Data.Vec.FromRange
import CanonC.Data.Vec.Refinement
import CanonC.Semantics.Borrow.Tracking
import CanonC.Semantics.Diag.History
import CanonC.Semantics.Diag.Render
import CanonC.Util.File.Register
import CanonC.Util.Parse.Printed
import CanonC.Util.Random.Interval
import CanonC.Util.Str.Intern.Capacity
import CanonC.Util.Str.Intern.Empty
import CanonC.Util.Str.Intern.Refinement
import CanonC.Util.Str.Join.Alloc
import CanonC.Util.Str.Join.RoundTrip
import CanonC.Util.Str.Split.KeepEmpty
import CanonC.Util.Str.Trim
import CanonC.Util.Str.Join.RoundTrip
