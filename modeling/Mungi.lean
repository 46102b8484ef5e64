import Mungi.Lib.ForLoop
import Mungi.Lib.Cat
import Mungi.Lib.SearchLoop
import Mungi.Lib.Runs
import Mungi.Lib.Simulation
import Mungi.Lib.Walks
import Mungi.Lib.Slots
import Mungi.Lib.Spans
import Mungi.Lib.Owners
import Mungi.Lib.Heap
import Mungi.Lib.Buckets
import Mungi.Lib.Links
import Mungi.Lib.Circles
import Mungi.Lib.Bytes
import Mungi.Lib.Paths
import Mungi.Words
import Mungi.BTree.Page
import Mungi.BTree.Shape
import Mungi.BTree.Search
import Mungi.BTree.Insert
import Mungi.BTree.Ins
import Mungi.BTree.Delete
import Mungi.BTree.Del
import Mungi.BTree.Accesses
import Mungi.BTree.Pool
import Mungi.BTree.Lookup
import Mungi.BTree.Failure
import Mungi.Vcache
import Mungi.Kernel
import Mungi.Security
import Mungi.Validation
import Mungi.PageRanges
import Mungi.Passwd
import Mungi.FreeList
import Mungi.Objects
import Mungi.CachedObjects
import Mungi.AddressMap
import Mungi.PasswdTable
import Mungi.PdxTable
import Mungi.Assertions
import Mungi.Clists
import Mungi.Buffers
import Mungi.SerialTty
import Mungi.SpinLock
import Mungi.Naming.Hmalloc
import Mungi.Naming.Absolute
import Mungi.Naming.NameHash
import Mungi.Naming.NameMap
import Mungi.Naming.Unions
import Mungi.Naming.Decode
import Mungi.Naming.Tree
import Mungi.Naming.Enumerate
import Mungi.Naming.Streams
import Mungi.Naming.Insert
import Mungi.Naming.Delete
import Mungi.Naming.Directory
import Mungi.Naming.Space
import Mungi.Naming.NameTree
import Mungi.Naming.Changes
import Mungi.Naming.NameRuns
import Mungi.Posix.Env
import Mungi.Posix.Descriptors
import Mungi.Posix.ObjectFiles
import Mungi.Posix.Opening
import Mungi.PdxRegistered
import Mungi.PdxAtomic
import Mungi.FreshObject
import Mungi.ApdSlots
import Mungi.SlotList
import Mungi.Provenance
import Mungi.Waitq
import Mungi.WaitqFifo
import Mungi.KernelHeap
import Mungi.Mm.Growth
import Mungi.Mm.Nodes
import Mungi.Mm.Chunks
import Mungi.Mm.Linking
import Mungi.Mm.Freeing
import Mungi.Mm.Taking
import Mungi.Mm.Locks
import Mungi.Mm.Resizing
import Mungi.Semaphore
import Mungi.SemBlocks
import Mungi.Syscalls
import Mungi.Mediation
import Mungi.Vm.PageTable
import Mungi.Vm.PageMap
import Mungi.Vm.Rpager
import Mungi.Vm.LinkFields
import Mungi.Vm.Frames
import Mungi.Vm.Mappings
import Mungi.Vm.Pending
import Mungi.Vm.PendingBounds
import Mungi.Vm.Ramdisk
import Mungi.Vm.RamdiskLayout
import Mungi.Threads.Memory
import Mungi.Threads.Apds
import Mungi.Threads.Threads
import Mungi.Threads.Steps
import Mungi.Threads.Apart
import Mungi.Threads.Making
import Mungi.Threads.Placed
import Mungi.Threads.Creation
import Mungi.Threads.Closing
import Mungi.Threads.Owners
import Mungi.Threads.Homes
import Mungi.Threads.Users
import Mungi.Threads.Replies
import Mungi.Threads.Calls
import Mungi.Threads.Bindings
import Mungi.Threads.Replacement
import Mungi.Threads.Confinement
import Mungi.Threads.Seats
import Mungi.Threads.Seating
import Mungi.Threads.Accounting
import Mungi.Threads.Numbers
import Mungi.Threads.Table
import Mungi.Threads.Entering
import Mungi.Threads.Directory
import Mungi.Threads.Lineage
import Mungi.Threads.Joined
import Mungi.Threads.Waiting
import Mungi.Threads.WaitAny
import Mungi.Threads.Failing
import Mungi.Threads.Leaks
import Mungi.Lib.Formats
import Mungi.Lib.Numerals
import Mungi.Component.Registry
import Mungi.Component.Instances
import Mungi.Component.Calls
import Mungi.Component.Service
import Mungi.Component.Programs
