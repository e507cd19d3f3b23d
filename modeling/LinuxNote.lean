import LinuxNote.Asid.Interleave
import LinuxNote.Asid.Tlb
import LinuxNote.CharDev
import LinuxNote.CpuTimer
import LinuxNote.Deadline
import LinuxNote.Fair
import LinuxNote.FileTable.Threads
import LinuxNote.Hrtimer.Active
import LinuxNote.Hrtimer.Forward
import LinuxNote.IrqDomain.Mapping
import LinuxNote.Kmap
import LinuxNote.Memblock.Extremal
import LinuxNote.Memblock.History
import LinuxNote.Mempool
import LinuxNote.Mmap.Merge
import LinuxNote.Mmap.Unmap
import LinuxNote.PageAlloc.Account
import LinuxNote.PageFrag.Fragments
import LinuxNote.Percpu.ChunkHint
import LinuxNote.RadixTree.Idr
import LinuxNote.RadixTree.Preload
import LinuxNote.ResourceTree.Invariant
import LinuxNote.SwapCount.History
import LinuxNote.SwapSlots.History
import LinuxNote.Timekeeping.Conversions
import LinuxNote.Timekeeping.SetTime
import LinuxNote.Timekeeping.Timecounter
import LinuxNote.Vmalloc.History
import LinuxNote.VmapBlock.Interleave
