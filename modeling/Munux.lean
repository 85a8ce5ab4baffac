import Munux.Lib.Outcome
import Munux.Lib.Queries
import Munux.Lib.Word
import Munux.Lib.ByteMem
import Munux.Lib.Links
import Munux.Lib.PageTable
import Munux.Lib.Tlb
import Munux.Lib.Slice
import Munux.Lib.X86
import Munux.Lib.Traps
import Munux.Lib.Traces
import Munux.Lib.Pic8259
import Munux.Lib.Scan
import Munux.Lib.Ring
import Munux.Lib.Ranges
import Munux.Lib.Numerals
import Munux.Lib.Runs
import Munux.Lib.Lines
import Munux.Heap.Alloc
import Munux.Heap.Blocks
import Munux.Heap.Refine
import Munux.Heap.Moves
import Munux.Heap.Invariant
import Munux.Heap.Coalescing
import Munux.Heap.Tiling
import Munux.Heap.Overflow
import Munux.Heap.Aligned
import Munux.Heap.Undo
import Munux.Memory.Pmm
import Munux.Memory.Frames
import Munux.Memory.Vmm
import Munux.Memory.AddressSpace
import Munux.Memory.Mmu
import Munux.Memory.TlbCoherence
import Munux.Memory.FlatMap
import Munux.Memory.Permissions
import Munux.Memory.KernelHeap
import Munux.Memory.HeapBoot
import Munux.Memory.LowTables
import Munux.Memory.Kmalloc
import Munux.Memory.HeapBounds
import Munux.Memory.HeapFrames
import Munux.Memory.Physical
import Munux.Memory.FrameCount
import Munux.Memory.BitmapPage
import Munux.Interrupts.Stubs
import Munux.Interrupts.Idt
import Munux.Interrupts.Irq
import Munux.Sync.IrqMutex
import Munux.Drivers.Keyboard
import Munux.Drivers.Scancodes
import Munux.Drivers.Mouse
import Munux.Drivers.Terminal
import Munux.Drivers.Cursor
import Munux.Drivers.Disk
import Munux.Drivers.AtaDrive
import Munux.Drivers.Timer
import Munux.Drivers.Serial
import Munux.Process.Scheduler
import Munux.Process.ReadyQueue
import Munux.Process.Removal
import Munux.Process.RoundRobin
import Munux.Process.Lifecycle
import Munux.Process.ProcessList
import Munux.Process.Creation
import Munux.Process.Termination
import Munux.Process.Switch
import Munux.Process.Preemption
import Munux.Process.RunningState
import Munux.Fs.BufferCache
import Munux.Fs.CacheRaces
import Munux.Fs.CacheFaults
import Munux.Fs.Storage
import Munux.Fs.Ext2
import Munux.Fs.Ext2Layout
import Munux.Fs.CachedReads
import Munux.Fs.Ext2Cached
import Munux.Fs.Ext2Robust
import Munux.Fs.Ext2Files
import Munux.Fs.Ext2Blocks
import Munux.Fs.Ext2Dirs
import Munux.Fs.TmpFs
import Munux.Fs.Listing
import Munux.Fs.Descriptors
import Munux.Fs.DescriptorRuns
import Munux.Fs.DescriptorRaces
import Munux.Syscalls.Handler
import Munux.Syscalls.Runs
import Munux.Syscalls.Int80
import Munux.Zos.Jes
import Munux.Zos.Batch
import Munux.Zos.JobNumbers
import Munux.Zos.Sclp
import Munux.Libk.Conv
import Munux.Libk.Utoa
import Munux.Libk.Printf
import Munux.Libk.CPrintf
import Munux.Libk.Strings
import Munux.Shell.Session
import Munux.Shell.Echo
import Munux.Process.TimeShares
import Munux.Lib.Delimited
import Munux.Zos.Console
import Munux.Zos.Transcript
import Munux.Lib.DirTree
import Munux.Fs.TreeView
import Munux.Lib.Settling
import Munux.Shell.Typing
import Munux.Heap.Contents
