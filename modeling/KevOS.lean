import KevOS.Pmm.Ownership
import KevOS.Pmm.Survival
import KevOS.Heap.FlatMachine
import KevOS.Tty.Lock
import KevOS.Tasking.RoundRobin
import KevOS.Tasking.Transparent
import KevOS.Tasking.Preemption
import KevOS.Tasking.Boot
import KevOS.Vmm.Model
import KevOS.Vmm.MapPage
import KevOS.Vmm.Init
import KevOS.Vmm.Mapping
import KevOS.Tty.Screen
import KevOS.Initrd.RoundTrip
import KevOS.Syscall.Boot
import KevOS.Heap.Preempted
import KevOS.Shell.Echo
import KevOS.Shell.Lines
import KevOS.Keyboard.Fifo
import KevOS.Memory.Backing
import KevOS.Tasking.Tss
import KevOS.Pmm.Exhaustion
import KevOS.Vmm.Permissions
import KevOS.Pmm.WholePages
import KevOS.Initrd.Listing
import KevOS.Heap.FirstFit
import KevOS.Heap.Outcomes
import KevOS.Heap.Stores
import KevOS.Heap.Sizes
import KevOS.Lib.Controllers
import KevOS.Interrupts.Model
import KevOS.Interrupts.Acknowledged
import KevOS.Lib.FlatStack
import KevOS.Lib.Ia32
import KevOS.Interrupts.Stubs
import KevOS.Interrupts.Frames
import KevOS.Memory.Boot
import KevOS.Memory.Exhausted
import KevOS.Memory.HeapWindow
import KevOS.Memory.HeapRuns
import KevOS.Memory.FullHeap
import KevOS.Vmm.Windows
import KevOS.Heap.Headers
import KevOS.Memory.Overwritten
import KevOS.Heap.FreeOrder
import KevOS.Libc.Memmove
import KevOS.Libc.Console
import KevOS.Libc.Strings
import KevOS.Libc.Format
import KevOS.Syscall.Dispatch
import KevOS.Keyboard.Typing
import KevOS.Initrd.Regions
import KevOS.Initrd.Slices
import KevOS.Shell.Cat
import KevOS.Lib.Privilege
import KevOS.Protection.Model
import KevOS.Protection.Tables
import KevOS.Protection.Boot
import KevOS.Protection.Rings
import KevOS.Protection.Ports
import KevOS.Lib.Rings
import KevOS.Protection.Usermode
import KevOS.Protection.SystemCalls
import KevOS.Interrupts.Remap
import KevOS.Protection.Devices
import KevOS.Interrupts.Replay
import KevOS.Shell.Builtins
import KevOS.Shell.Replies
import KevOS.Shell.Listing
import KevOS.Shell.Session
import KevOS.Keyboard.Typist
import KevOS.Protection.Panic
import KevOS.Lib.Pit8254
import KevOS.Interrupts.Pit
import KevOS.Memory.Startup
import KevOS.Tty.Window
import KevOS.Shell.Corrections
import KevOS.Lib.Crtc6845
import KevOS.Tty.Cursor
import KevOS.Shell.Colors
import KevOS.Shell.Meminfo
import KevOS.Shell.HeapTest
import KevOS.Memory.Requests
import KevOS.Lib.Execution
