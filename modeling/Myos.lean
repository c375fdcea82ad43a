import Myos.Lib.Dyadic
import Myos.Lib.ListHead
import Myos.Pmm.Buddy
import Myos.Pmm.Partition
import Myos.Pmm.Calls
import Myos.Pmm.Runs
import Myos.Pmm.Coalescing
import Myos.Lib.Walk
import Myos.Lib.SortedMap
import Myos.Mm.Memory
import Myos.Mm.Pgtbl
import Myos.Mm.Trees
import Myos.Mm.Ownership
import Myos.Mm.Frames
import Myos.Mm.MapPage
import Myos.Mm.World
import Myos.Mm.CopyTables
import Myos.Mm.FreeTree
import Myos.Mm.Growth
import Myos.Mm.Vma
import Myos.Mm.PageFault
import Myos.Mm.UserPages
import Myos.Mm.RefCounts
import Myos.Mm.Elf
import Myos.Mm.Progress
import Myos.Mm.Sharing
import Myos.Mm.Exec
import Myos.Lib.Fifo
import Myos.Lib.Deadlines
import Myos.Lib.Runs
import Myos.Sync.QSpinlock
import Myos.Sync.QSpinlockProofs
import Myos.Sched.Task
import Myos.Sched.Wakeup
import Myos.Sched.Kernel
import Myos.Sched.Machine
import Myos.Sched.Steps
import Myos.Sched.Stacks
import Myos.Sched.Occupancy
import Myos.Sched.Sleepers
import Myos.Sched.Accesses
import Myos.Sched.Agreement
import Myos.Sched.Finality
import Myos.Sched.Lifetime
import Myos.Sched.Reaping
import Myos.Sched.Registration
import Myos.Sched.Priorities
import Myos.Sched.Inheritance
import Myos.Lib.RedBlack
import Myos.Lib.Spans
import Myos.Vmap.Manager
import Myos.Vmap.Accounting
import Myos.Vmap.Ranges
import Myos.Vmap.Coalescing
import Myos.Lib.Bytes
import Myos.Lib.Census
import Myos.Lib.Chain
import Myos.Fat.Volume
import Myos.Fat.Inode
import Myos.Fat.Chains
import Myos.Fat.Files
import Myos.Fat.ReadBack
import Myos.Mm.Areas
import Myos.Sync.RwLock
import Myos.Sync.TicketLock
import Myos.Sync.SeqLock
import Myos.Sync.Semaphore
import Myos.Tty.Line
import Myos.Tty.Readers
import Myos.Mm.Shortage
import Myos.Fat.Slots
import Myos.Fat.Objects
import Myos.Fat.Operations
import Myos.Sched.Idle
import Myos.Mm.PageMap
import Myos.Vfs.Path
import Myos.Mm.Fork
import Myos.Mm.Image
import Myos.Vmalloc.Mappings
import Myos.Vmalloc.Pages
import Myos.Vmalloc.Ledger
import Myos.Vmalloc.Calls
import Myos.Vmalloc.Releases
import Myos.Vmalloc.Complete
import Myos.Vmalloc.Mapped
import Myos.Pmm.Blocks
import Myos.Pmm.Dma
import Myos.Pmm.Usage
import Myos.Vmap.Fits
import Myos.Pmm.Handles
import Myos.Rbtree.Nodes
import Myos.Rbtree.Shape
import Myos.Rbtree.Rotations
import Myos.Lib.Rounds
import Myos.Rbtree.Fixups
import Myos.Rbtree.Links
import Myos.Rbtree.Operations
import Myos.Rbtree.Iteration
import Myos.Mm.FreeArea
import Myos.Mm.Calls
import Myos.Mm.Break
import Myos.Mm.Lending
import Myos.Mm.PageLoops
import Myos.Mm.AddressSpace
import Myos.Mm.Munmap
import Myos.Mm.Mmap
import Myos.Mm.TableFrames
import Myos.Mm.StackPlace
import Myos.Mm.LoadFailure
import Myos.Mm.PageDemand
import Myos.Mm.ImageBytes
import Myos.Mm.LoadPlan
import Myos.Mm.ElfBounds
import Myos.Vfs.NormalForm
import Myos.Vfs.Messages
import Myos.Vfs.Mounts
import Myos.Vfs.Dirents
import Myos.Fat.ShortNames
import Myos.Fat.OpenFiles
import Myos.Fat.Offsets
import Myos.Fat.PathWalk
import Myos.Fat.Endings
import Myos.Fat.Scanners
import Myos.Fat.Bounds
import Myos.Fat.Copies
import Myos.Printk.Numbers
import Myos.Printk.Formats
import Myos.Boot.Tables
import Myos.Boot.Translation
import Myos.Driver.Timers
import Myos.Slab.Heap
import Myos.Slab.Objects
import Myos.Slab.Calls
import Myos.Slab.Lifetimes
import Myos.Slab.KernelAllocator
import Myos.Slab.Provenance
import Myos.Slab.Capacity
import Myos.Lib.Refines
import Myos.Mm.Effects
import Myos.Mm.Writers
import Myos.Mm.PrivateMemory
import Myos.Lib.SlotTable
import Myos.Fat.Directory
import Myos.Fat.Tree
import Myos.Fat.TreeSteps
import Myos.Fat.TreeRuns
import Myos.Fat.TreeLaws
import Myos.Driver.Virtqueue
import Myos.Driver.BlockRequest
import Myos.Driver.BlockWaits
import Myos.Lib.Forest
import Myos.Fat.Paths
import Myos.Vfs.Descriptors
