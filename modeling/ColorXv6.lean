import ColorXv6.Memmove
import ColorXv6.MpTable
import ColorXv6.Spinlock
import ColorXv6.Logging.History
import ColorXv6.Logging.Reservation
import ColorXv6.Bio.FlatStore
import ColorXv6.Bio.Ide
import ColorXv6.Vm.ExecFile
import ColorXv6.Vm.FileRefs
import ColorXv6.Vm.FlatMap
import ColorXv6.Vm.LazyAlloc
import ColorXv6.Vm.UserStores
import ColorXv6.Fs.Bitmap
import ColorXv6.Fs.Dup2
import ColorXv6.Fs.MkfsConsistency
import ColorXv6.Fs.PathNames
import ColorXv6.Fs.ReadBack
import ColorXv6.Fs.SharedOffset
import ColorXv6.Sched.DeathStatus
import ColorXv6.Sched.KillTarget
import ColorXv6.Sched.Priorities
import ColorXv6.Sched.RoundRobin
import ColorXv6.Sched.SmpSafety
import ColorXv6.Ipc.PipeFifo
import ColorXv6.Ipc.PipeWakeup
import ColorXv6.Dev.DrawLine
import ColorXv6.Dev.LineEditor
import ColorXv6.Dev.Screen
import ColorXv6.User.Grep
import ColorXv6.User.MallocSizes
import ColorXv6.User.ShellAccepts
