import HryOS.Lib.Transition
import HryOS.Lib.ByteMemory
import HryOS.Lib.BlockList
import HryOS.Lib.X86
import HryOS.Lib.Trap
import HryOS.Lib.BitFields
import HryOS.Lib.Pic8259
import HryOS.Lib.Raster
import HryOS.Lib.TextGrid
import HryOS.Lib.Positional
import HryOS.Lib.LinkedChain
import HryOS.Lib.Exclusion
import HryOS.Lib.Resumable
import HryOS.Memory.Gdt
import HryOS.Memory.Allocator
import HryOS.Memory.AllocatorRefines
import HryOS.Memory.HeapSafety
import HryOS.Memory.Region
import HryOS.Memory.Requests
import HryOS.Memory.KernelHeap
import HryOS.Memory.MemoryMap
import HryOS.Scheduler.Process
import HryOS.Scheduler.Scheduler
import HryOS.Scheduler.Moves
import HryOS.Scheduler.Consistency
import HryOS.Scheduler.System
import HryOS.Scheduler.Invariant
import HryOS.Scheduler.Uptime
import HryOS.Scheduler.RoundRobin
import HryOS.Scheduler.Starvation
import HryOS.Scheduler.Sleep
import HryOS.Scheduler.LostProcess
import HryOS.Scheduler.WaitFor
import HryOS.Scheduler.Waiting
import HryOS.Scheduler.Mutex
import HryOS.Hlib.CircularBuffer
import HryOS.Hlib.Deque
import HryOS.Hlib.Charconv
import HryOS.Hlib.FloatParts
import HryOS.Hlib.Format
import HryOS.Hlib.Numeral
import HryOS.Hlib.Float
import HryOS.Hlib.Halves
import HryOS.Hlib.Interleave
import HryOS.Hlib.List
import HryOS.Hlib.ListFamily
import HryOS.Hlib.Algorithm
import HryOS.Scheduler.ListMoves
import HryOS.Scheduler.NodeScheduler
import HryOS.Scheduler.NodeMemory
import HryOS.Drivers.Keyboard
import HryOS.Drivers.WakeUp
import HryOS.Drivers.KeyBuffer
import HryOS.Drivers.Readers
import HryOS.Terminal.Vesa
import HryOS.Terminal.Terminal
import HryOS.Terminal.Pixels
import HryOS.Terminal.Fonts
import HryOS.Terminal.Framebuffer
import HryOS.Terminal.Screen
import HryOS.Terminal.Backend
import HryOS.Terminal.Vga
import HryOS.Terminal.CommandLine
import HryOS.Terminal.Typing
import HryOS.Terminal.LongNames
import HryOS.Terminal.Cursor
import HryOS.Terminal.Tasks
import HryOS.Terminal.ShellLine
import HryOS.Terminal.Preempted
import HryOS.Terminal.Granularity
import HryOS.Terminal.Positions
import HryOS.Scheduler.TaskSwitch
import HryOS.Scheduler.ContextSwitch
import HryOS.Interrupts.Stubs
import HryOS.Interrupts.FaultScreen
import HryOS.Interrupts.Idt
import HryOS.Interrupts.Dispatch
import HryOS.Scheduler.Preemption
import HryOS.Hlib.Stack
import HryOS.Interrupts.Bookkeeping
