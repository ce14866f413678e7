import RiscvLab.Library.Reachable
import RiscvLab.Library.Rings
import RiscvLab.Library.Spacing
import RiscvLab.Lib.List
import RiscvLab.Lib.ListSequence
import RiscvLab.Lib.Hash
import RiscvLab.Mm.Buddy
import RiscvLab.Mm.BuddyLists
import RiscvLab.Mm.BuddyInit
import RiscvLab.Mm.BuddySafety
import RiscvLab.Mm.BuddyTiling
import RiscvLab.Mm.BuddyMerge
import RiscvLab.Mm.BuddyPointers
import RiscvLab.Mm.RefCount
import RiscvLab.Mm.Slab
import RiscvLab.Mm.SlabInvariant
import RiscvLab.Mm.SlabLists
import RiscvLab.Mm.SlabSteps
import RiscvLab.Mm.CacheGeometry
import RiscvLab.Mm.SlabContract
import RiscvLab.Mm.SlabOwner
import RiscvLab.Mm.SlabCpu
import RiscvLab.Mm.Kmalloc
import RiscvLab.Library.Bytes
import RiscvLab.Library.LittleEndian
import RiscvLab.Lib.Bitmap
import RiscvLab.Lib.FirstFit
import RiscvLab.Fs.Layout
import RiscvLab.Fs.Super
import RiscvLab.Fs.Mkfs
import RiscvLab.Fs.Mounted
import RiscvLab.Fs.FreeBlocks
import RiscvLab.Fs.InodeNumbers
import RiscvLab.Fs.SuperSync
import RiscvLab.Library.Except
import RiscvLab.Lib.String
import RiscvLab.Fs.Efs
import RiscvLab.Fs.Inode
import RiscvLab.Fs.Dentry
import RiscvLab.Fs.Frames
import RiscvLab.Fs.DentryFrames
import RiscvLab.Fs.Mount
import RiscvLab.Fs.Reformat
import RiscvLab.Fs.Tree
import RiscvLab.Fs.DirTree
import RiscvLab.Fs.InodeGet
import RiscvLab.Fs.BlockMap
import RiscvLab.Fs.FileWrite
import RiscvLab.Fs.Reclaim
import RiscvLab.Fs.BlockOwner
import RiscvLab.Fs.InodeSync
import RiscvLab.Fs.DirRuns
import RiscvLab.Blk.Bio
import RiscvLab.Blk.Buf
import RiscvLab.Blk.Flush
import RiscvLab.Blk.Lru
import RiscvLab.Blk.GenStartIo
import RiscvLab.Blk.FlatArray
import RiscvLab.Lib.Semaphore
import RiscvLab.Lib.Mutex
import RiscvLab.Kernel.Sched
import RiscvLab.Kernel.SchedInvariant
import RiscvLab.Kernel.SchedSafety
import RiscvLab.Kernel.Interrupts
import RiscvLab.Kernel.Work
import RiscvLab.Library.RadixTree
import RiscvLab.Library.Unfolding
import RiscvLab.Kernel.Vm
import RiscvLab.Kernel.Mappages
import RiscvLab.Kernel.OutOfMemory
import RiscvLab.Blk.Request
import RiscvLab.Blk.RequestProtocol
import RiscvLab.Blk.RequestLifetime
import RiscvLab.Fs.SparseWrite
import RiscvLab.Fs.DirCodec
import RiscvLab.Fs.NameTree
import RiscvLab.Fs.Consistent
import RiscvLab.Fs.ConsistentRuns
import RiscvLab.Fs.PathWalk
import RiscvLab.Fs.Refusal
import RiscvLab.Kernel.File
import RiscvLab.Kernel.FileRefs
import RiscvLab.Kernel.FileOffset
import RiscvLab.Kernel.FileRead
import RiscvLab.Kernel.Proc
import RiscvLab.Kernel.Timer
import RiscvLab.Library.Machine
import RiscvLab.Kernel.Spinlock
import RiscvLab.Kernel.Swtch
import RiscvLab.Kernel.TrapFrame
