import TargetUtils.BitUtils
import TargetUtils.Library.OrderedMap
import TargetUtils.Library.GreedyChunks
import TargetUtils.Library.FreeGaps
import TargetUtils.Library.Intervals
import TargetUtils.Library.Marking
import TargetUtils.Library.Runs
import TargetUtils.Library.ColoredTree
import TargetUtils.Library.RedBlack
import TargetUtils.Judy1
import TargetUtils.Power2Allocator.Basic
import TargetUtils.Power2Allocator.FreeLists
import TargetUtils.Power2Allocator.Pool
import TargetUtils.Power2Allocator.Refinement
import TargetUtils.Power2Allocator.Alloc
import TargetUtils.Power2Allocator.Create
import TargetUtils.Power2Allocator.AllocMultiple
import TargetUtils.Power2Allocator.ReleaseMultiple
import TargetUtils.Power2Allocator.Runs
import TargetUtils.Power2Allocator.Guarantees
import TargetUtils.Power2Allocator.ZeroSize
import TargetUtils.Power2Allocator.Reserve
import TargetUtils.Power2Allocator.AllOrNothing
import TargetUtils.Power2Allocator.Termination
import TargetUtils.Power2Allocator.Accounting
import TargetUtils.Power2Allocator.Checker
import TargetUtils.Power2Allocator.Decomposition
import TargetUtils.Power2Allocator.Restore
import TargetUtils.Power2Allocator.Undo
import TargetUtils.Power2Allocator.Capacity
import TargetUtils.Power2Allocator.Placement
import TargetUtils.IdAllocator.Basic
import TargetUtils.IdAllocator.Search
import TargetUtils.IdAllocator.Runs
import TargetUtils.IdAllocator.Contiguous
import TargetUtils.Rbt.Basic
import TargetUtils.Rbt.Heap
import TargetUtils.Rbt.Rotation
import TargetUtils.Rbt.Neighbor
import TargetUtils.Rbt.PostInsertion
import TargetUtils.Rbt.Search
import TargetUtils.Rbt.Insertion
import TargetUtils.Rbt.Replacement
import TargetUtils.Rbt.Recorded
import TargetUtils.Rbt.PostDeletion
import TargetUtils.Rbt.Removal
import TargetUtils.Rbt.Runs
import TargetUtils.Rbt.Execution
import TargetUtils.Rbt.Guarantees
import TargetUtils.Rbt.Bounds
import TargetUtils.Rbt.Sides
import TargetUtils.Rbt.Intermediate
import TargetUtils.Library.PartialMap
import TargetUtils.Map.Basic
import TargetUtils.Map.Refinement
import TargetUtils.IdAllocator.Enumeration
import TargetUtils.IdAllocator.FirstFit
import TargetUtils.Library.WordArray
import TargetUtils.Bitset.Basic
import TargetUtils.Bitset.Words
import TargetUtils.Bitset.FirstClear
import TargetUtils.Bitset.Copy
import TargetUtils.Bitset.CopyRange
import TargetUtils.Library.LinkedList
import TargetUtils.Dll.Basic
import TargetUtils.Dll.Shape
import TargetUtils.Dll.Runs
import TargetUtils.Bitset.Observers
import TargetUtils.Bitset.Iteration
import TargetUtils.FBitset.Basic
import TargetUtils.FBitset.Search
import TargetUtils.Bitset.Refinement
import TargetUtils.FBitset.Refinement
import TargetUtils.Rbt.Memory
import TargetUtils.Rbt.Depth
import TargetUtils.Rbt.UpdateCost
import TargetUtils.Hashtbl.Basic
import TargetUtils.Hashtbl.Runs
import TargetUtils.JudySL.Basic
import TargetUtils.JudySL.Canonical
