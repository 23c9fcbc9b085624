import Rynex.Memory.Conservation
import Rynex.Task.Pointers
import Rynex.Ipc.Wake
import Rynex.Ipc.Receive
import Rynex.Ipc.Names
import Rynex.Ipc.Reply
import Rynex.Pipe.Buffer
import Rynex.Pipe.Refs
import Rynex.Fs.Paths
import Rynex.Fs.Store
import Rynex.Fs.Normalize
import Rynex.Fs.MkdirP
import Rynex.Fs.Bridge
import Rynex.Fs.External
import Rynex.Fs.ProcFs
import Rynex.Fs.Getdents
import Rynex.Sched.Runs
import Rynex.Sched.Lock
import Rynex.Sched.PiLock
import Rynex.Sched.PipeWait
import Rynex.Sched.Spaces
import Rynex.Sched.Descriptors
import Rynex.Sched.Teardown
import Rynex.Sched.Resources
import Rynex.Task.Pid
import Rynex.Virtio.Queue
import Rynex.Paging.KernelMap
import Rynex.Paging.Translate
import Rynex.Memory.Canonical
import Rynex.Memory.Requests
import Rynex.Paging.Progress
import Rynex.Paging.WriteCheck
import Rynex.Paging.WriteProtect
import Rynex.Paging.Mmap
import Rynex.Paging.Munmap
import Rynex.Sched.ChildWait
import Rynex.Sched.Timeouts
import Rynex.Task.SignalRuns
import Rynex.Task.Suspend
import Rynex.Task.Context
import Rynex.Console.Keyboard
import Rynex.Memory.Quarantine
import Rynex.Paging.Holes
import Rynex.Fs.Copies
import Rynex.Sync.Mutex
import Rynex.Klog
import Rynex.Console.Tty
import Rynex.Console.Framebuffer
import Rynex.Console.Output
import Rynex.Boot.Multiboot
