import Xv6.Sched.Fairness
import Xv6.Sched.Weights
import Xv6.Sched.Family
import Xv6.Sched.Sleep
import Xv6.Sched.Cpus
import Xv6.Sched.Ps
import Xv6.Sched.Wakeup
import Xv6.Sched.Charge
import Xv6.Sched.Pass
import Xv6.Swap.Safety
import Xv6.Swap.Faults
import Xv6.Vm.Faults
import Xv6.Vm.Populate
import Xv6.Vm.Pick
import Xv6.Vm.Refuse
import Xv6.Vm.Fds
import Xv6.Vm.Discipline
import Xv6.Vm.Slots
import Xv6.Vm.Publish
import Xv6.Vm.Trap
import Xv6.Vm.Freemem
import Xv6.Vm.Kmem
import Xv6.Vm.Dealloc
import Xv6.Vm.Clone
import Xv6.Vm.Exec
import Xv6.Vm.Sbrk
import Xv6.Vm.Perms
import Xv6.Vm.Half
import Xv6.Vm.Radix
import Xv6.Fs.Reserve
import Xv6.Files.Run
import Xv6.Files.Logged
import Xv6.Files.Array
import Xv6.Files.Capacity
import Xv6.Files.Lookup
import Xv6.Files.Entries
import Xv6.Files.Path
import Xv6.Files.Full
import Xv6.Files.Refused
import Xv6.Files.Icache
import Xv6.Files.Inodes
import Xv6.Files.Made
import Xv6.Lib.Mru
import Xv6.Lib.Locked
import Xv6.Io.Bcache
import Xv6.Io.Bufs
import Xv6.Io.Blocks
import Xv6.Io.Console
import Xv6.Io.Ide
import Xv6.Io.Refs
import Xv6.Swap.Locks
import Xv6.Swap.Sleeps
import Xv6.Swap.Remove
import Xv6.Swap.Userinit
import Xv6.Mem.Memmove
import Xv6.Sched.Interrupts
import Xv6.Lib.Cells
import Xv6.Lib.Lines
import Xv6.Lib.Pattern
import Xv6.User.Grep
import Xv6.User.Input
import Xv6.Lib.Table
import Xv6.Lib.Forest
import Xv6.User.Shell
import Xv6.User.Malloc
import Xv6.User.Umalloc
import Xv6.User.Parse
