import MAlloc.Client.Aligned
import MAlloc.Client.Arithmetic
import MAlloc.Client.Astray
import MAlloc.Client.Books
import MAlloc.Client.Calls
import MAlloc.Client.DoubleFree
import MAlloc.Client.Facade
import MAlloc.Client.Failure
import MAlloc.Client.Footprint
import MAlloc.Client.Guards
import MAlloc.Client.Missed
import MAlloc.Client.Ownership
import MAlloc.Client.Poison
import MAlloc.Client.Refinement
import MAlloc.Client.Release
import MAlloc.Client.Reports
import MAlloc.Client.Separation
import MAlloc.Client.Shim
import MAlloc.Client.Stale
import MAlloc.Client.Statistics
import MAlloc.Client.System
import MAlloc.Client.Tracking
import MAlloc.Client.Transparency
import MAlloc.Client.Underflow
import MAlloc.Heap.Alone
import MAlloc.Heap.Blind
import MAlloc.Heap.Edit
import MAlloc.Heap.Exact
import MAlloc.Heap.Fit
import MAlloc.Heap.Fragmentation
import MAlloc.Heap.History
import MAlloc.Heap.Layout
import MAlloc.Heap.Ops
import MAlloc.Heap.Remains
import MAlloc.Heap.Rep
import MAlloc.Heap.System
import MAlloc.Heap.Tag
import MAlloc.Lib.Bytes
import MAlloc.Lib.Cells
import MAlloc.Lib.Keyed
import MAlloc.Lib.Links
import MAlloc.Lib.Objects
import MAlloc.Lib.Parts
import MAlloc.Lib.Refine
import MAlloc.Lib.Run
import MAlloc.Lib.Share
import MAlloc.Lib.Span
import MAlloc.Lib.Tally
import MAlloc.Model.Allocator
import MAlloc.Model.AllocatorImpl
import MAlloc.Model.BlockHeader
import MAlloc.Model.CentralState
import MAlloc.Model.DebugLayer
import MAlloc.Model.LargeAllocator
import MAlloc.Model.MappedRegion
import MAlloc.Model.Pools
import MAlloc.Model.SegmentHeap
import MAlloc.Model.Statistics
import MAlloc.Model.StatisticsCollector
import MAlloc.Model.StlAllocator
import MAlloc.Model.SystemMemory
import MAlloc.Raw.Alloc
import MAlloc.Raw.Free
import MAlloc.Raw.Refuse
import MAlloc.Raw.State
import MAlloc.Small.Cache
import MAlloc.Small.Exits
import MAlloc.Small.HighWater
import MAlloc.Small.Inert
import MAlloc.Small.Instance
import MAlloc.Small.Lifetimes
import MAlloc.Small.Pool
import MAlloc.Small.Process
import MAlloc.Small.Shard
import MAlloc.Small.System
import MAlloc.Stats.Atomic
import MAlloc.Stats.Snapshot
