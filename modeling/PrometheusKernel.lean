import PrometheusKernel.Lib.ByteMem
import PrometheusKernel.Lib.LinkedList
import PrometheusKernel.Lib.BuddySystem
import PrometheusKernel.Lib.Word
import PrometheusKernel.Machine
import PrometheusKernel.Buddy.Model
import PrometheusKernel.Buddy.Lists
import PrometheusKernel.Buddy.Rep
import PrometheusKernel.Buddy.Steps
import PrometheusKernel.Buddy.Init
import PrometheusKernel.Buddy.Run
import PrometheusKernel.Buddy.Partition
import PrometheusKernel.Buddy.Completeness
import PrometheusKernel.Pmm.Model
import PrometheusKernel.Buddy.Returned
import PrometheusKernel.Pmm.Safety
import PrometheusKernel.Cow.Model
import PrometheusKernel.Lib.TableTree
import PrometheusKernel.Ownership
import PrometheusKernel.Vmm.Entries
import PrometheusKernel.Vmm.Tables
import PrometheusKernel.Vmm.Refinement
import PrometheusKernel.Pmm.Source
import PrometheusKernel.Cow.Refs
import PrometheusKernel.Lib.CopyOnWrite
import PrometheusKernel.Cow.Steps
import PrometheusKernel.Cow.Refinement
import PrometheusKernel.Lib.Interleaving
import PrometheusKernel.Cow.Concurrent
import PrometheusKernel.Heap.Blocks
import PrometheusKernel.Heap.Calls
import PrometheusKernel.Heap.Run
import PrometheusKernel.Heap.TilesHeap
import PrometheusKernel.Heap.SlabRanges
import PrometheusKernel.Slab.Model
import PrometheusKernel.Slab.Rep
import PrometheusKernel.Slab.Steps
import PrometheusKernel.Slab.Calls
import PrometheusKernel.Slab.Conservation
import PrometheusKernel.PageCache.Model
import PrometheusKernel.PageCache.Lists
import PrometheusKernel.PageCache.Calls
import PrometheusKernel.Lib.BoundedMap
import PrometheusKernel.PageCache.Refinement
import PrometheusKernel.PageCache.Recency
import PrometheusKernel.PageCache.Concurrent
import PrometheusKernel.DemandPaging.Model
import PrometheusKernel.DemandPaging.Regions
import PrometheusKernel.Slab.Layout
import PrometheusKernel.Slab.Alignment
import PrometheusKernel.Heap.Alignment
import PrometheusKernel.Heap.Limits
import PrometheusKernel.Heap.Realloc
import PrometheusKernel.Heap.DoubleFree
import PrometheusKernel.Boot.Model
import PrometheusKernel.Boot.TagWalk
import PrometheusKernel.Lib.Numeral
import PrometheusKernel.Stdio.Model
import PrometheusKernel.Stdio.Render
import PrometheusKernel.Cow.ConcurrentRefs
import PrometheusKernel.DemandPaging.Faults
import PrometheusKernel.DemandPaging.FaultSteps
import PrometheusKernel.DemandPaging.FaultRuns
import PrometheusKernel.Ledger
import PrometheusKernel.Slab.Classes
import PrometheusKernel.Slab.Foreign
import PrometheusKernel.Slab.Caches
import PrometheusKernel.Slab.Destroy
import PrometheusKernel.DemandPaging.Lookups
import PrometheusKernel.Vmm.Frames
import PrometheusKernel.DemandPaging.Handling
import PrometheusKernel.DemandPaging.Backing
import PrometheusKernel.DemandPaging.Calls
import PrometheusKernel.DemandPaging.Isolation
import PrometheusKernel.DemandPaging.Removal
import PrometheusKernel.Boot.Paging
import PrometheusKernel.Vmm.Permissions
import PrometheusKernel.DemandPaging.ZeroFill
import PrometheusKernel.Cow.RefCounts
import PrometheusKernel.Cow.CountedRuns
import PrometheusKernel.Cow.FailedCalls
import PrometheusKernel.Cow.Underflow
import PrometheusKernel.Cow.Counter
import PrometheusKernel.Cow.Sharers
import PrometheusKernel.PageCache.OnBuddy
import PrometheusKernel.PageCache.TableBlock
import PrometheusKernel.Blocks
import PrometheusKernel.Pool.Model
import PrometheusKernel.Pool.Rep
import PrometheusKernel.Pool.Steps
import PrometheusKernel.Pool.Conservation
import PrometheusKernel.Pool.Sizes
import PrometheusKernel.Pool.Destroy
import PrometheusKernel.Buddy.Bitmap
import PrometheusKernel.Lib.Loop
import PrometheusKernel.Pmm.Drain
import PrometheusKernel.Pool.Utilization
import PrometheusKernel.Vga.Model
import PrometheusKernel.Vga.Cursor
import PrometheusKernel.Lib.TextLayout
import PrometheusKernel.Vga.Text
import PrometheusKernel.Keyboard.Model
import PrometheusKernel.Lib.RingBuffer
import PrometheusKernel.Keyboard.Queue
import PrometheusKernel.Keyboard.Letters
import PrometheusKernel.Interrupts.Model
import PrometheusKernel.Interrupts.Frames
import PrometheusKernel.Interrupts.Pic
import PrometheusKernel.Stdio.Bounded
import PrometheusKernel.Stdio.Log
import PrometheusKernel.Stdio.Scan
import PrometheusKernel.DemandPaging.Teardown
import PrometheusKernel.Lib.Assignments
import PrometheusKernel.Strings.Copy
import PrometheusKernel.Strings.Buffers
import PrometheusKernel.Stdio.Numbers
import PrometheusKernel.Serial.Model
import PrometheusKernel.Serial.Transmit
import PrometheusKernel.Spinlock.Exclusion
import PrometheusKernel.DemandPaging.Sharing
import PrometheusKernel.Lib.LockOrder
import PrometheusKernel.Locks.Model
import PrometheusKernel.Lib.Fairness
import PrometheusKernel.Locks.Discipline
import PrometheusKernel.Locks.Spinning
import PrometheusKernel.Lib.PrivateBytes
import PrometheusKernel.Heap.Contents
import PrometheusKernel.Buddy.Contents
import PrometheusKernel.Buddy.Held
import PrometheusKernel.Lib.FirstFit
import PrometheusKernel.Heap.FirstFit
import PrometheusKernel.Kernel.Model
import PrometheusKernel.Kernel.Starvation
import PrometheusKernel.Lib.TwoSections
import PrometheusKernel.DemandPaging.Linearizable
import PrometheusKernel.Slab.Contents
import PrometheusKernel.Pool.Contents
import PrometheusKernel.Interrupts.Gates
import PrometheusKernel.Interrupts.Delivery
