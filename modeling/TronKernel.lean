import TronKernel.Heap.FirstFit
import TronKernel.Lib.Tiling
import TronKernel.Heap.Layout
import TronKernel.Heap.Shape
import TronKernel.Heap.Represents
import TronKernel.Heap.RefinesMalloc
import TronKernel.Heap.RefinesFree
import TronKernel.Heap.Runs
import TronKernel.Heap.FreeOrder
import TronKernel.Heap.Accounting
import TronKernel.Heap.Isolation
import TronKernel.Buddy.Allocator
import TronKernel.Buddy.Represents
import TronKernel.Buddy.Operations
import TronKernel.Buddy.Calls
import TronKernel.Buddy.Structure
import TronKernel.Buddy.Confluence
import TronKernel.Buddy.Stale
import TronKernel.Sem.Counting
import TronKernel.Sem.Interleaving
import TronKernel.Lib.CircularBuffer
import TronKernel.Pipe.Buffer
import TronKernel.Pipe.Fifo
import TronKernel.Pipe.Bounds
import TronKernel.Sem.Posts
import TronKernel.Sem.Waiters
import TronKernel.Interrupt.Keyboard
import TronKernel.Interrupt.KeyBuffer
import TronKernel.Interrupt.ReadLine
import TronKernel.Interrupt.Syscalls
import TronKernel.Sched.Descriptors
import TronKernel.Lib.CircularList
import TronKernel.Sched.Mutex
import TronKernel.Sched.Ring
import TronKernel.Sched.Search
import TronKernel.Sched.Blocks
import TronKernel.Sched.Boot
import TronKernel.Sched.Resume
import TronKernel.Sched.Running
import TronKernel.Sched.OneRunning
import TronKernel.Buddy.Contract
import TronKernel.Heap.Contract
import TronKernel.Pipe.Registry
import TronKernel.Sem.Reuse
import TronKernel.Lib.Bytes
import TronKernel.Lib.Lock
import TronKernel.Modules.Image
import TronKernel.Modules.RoundTrip
import TronKernel.Phylo.Forks
import TronKernel.Phylo.Removal
import TronKernel.Pipe.WaitLists
import TronKernel.Sched.EndOfFile
import TronKernel.Sched.Unlink
import TronKernel.Sched.Waiting
import TronKernel.Sched.Safety
import TronKernel.Sched.Idle
import TronKernel.Sched.Handles
import TronKernel.Sched.Children
import TronKernel.Sched.Pids
import TronKernel.Sched.Termination
import TronKernel.Sched.Slice
import TronKernel.Sched.Neutral
import TronKernel.Sched.Exhausted
import TronKernel.Shell.PipedBuffer
import TronKernel.Lib.Numerals
import TronKernel.Lib.Reversal
import TronKernel.Text.Numerals
import TronKernel.Text.ReadBack
import TronKernel.Lib.Concat
import TronKernel.Text.Print
import TronKernel.Text.PrintExact
import TronKernel.Lib.Split
import TronKernel.Shell.Words
import TronKernel.Shell.Arguments
import TronKernel.Shell.CommandLine
import TronKernel.Modules.Memcpy
import TronKernel.Video.Screen
import TronKernel.Video.Rectangle
import TronKernel.Video.Scroll
import TronKernel.Video.Cursor
import TronKernel.Tron.Game
import TronKernel.Tron.Symmetry
import TronKernel.Tron.Rounds
import TronKernel.Shell.Filters
import TronKernel.Shell.WordCount
import TronKernel.Shell.LineEditor
import TronKernel.Shell.SplitLine
import TronKernel.Shell.PrintMem
import TronKernel.Sched.StartFrame
import TronKernel.Lib.RoundRobin
import TronKernel.Sched.Fairness
import TronKernel.Interrupt.Timer
import TronKernel.Sched.ContextSwitch
import TronKernel.Tests.Sync
import TronKernel.Phylo.Hunger
import TronKernel.Tests.Memory
import TronKernel.Video.Glyph
import TronKernel.Video.Terminal
import TronKernel.Shell.Console
import TronKernel.Interrupt.Idt
import TronKernel.Bmfs.Area
import TronKernel.Bmfs.Commands
import TronKernel.Bmfs.Initialize
import TronKernel.Boot.Mbr
import TronKernel.Boot.Paging
import TronKernel.Lib.FirstFit
import TronKernel.Bmfs.Utility
import TronKernel.Bmfs.Directory
import TronKernel.Bmfs.Files
import TronKernel.Bmfs.Store
import TronKernel.Lib.Paging
import TronKernel.Boot.Kernel
