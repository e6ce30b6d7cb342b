import Xv6.Base.ArrayQueue
import Xv6.Base.Alternate
import Xv6.Kernel.System
import Xv6.Kernel.Sleep
import Xv6.Fs.Reserve
import Xv6.Fs.Maps
import Xv6.Fs.Bio
import Xv6.Fs.Partial
import Xv6.Fs.Paths
import Xv6.Fs.Roundtrip
import Xv6.Io.Piperead
import Xv6.Io.Console
import Xv6.Base.Trie
import Xv6.Base.Overlay
import Xv6.Vm.Map
import Xv6.Vm.Space
import Xv6.Vm.Sbrk
import Xv6.Vm.UserCopies
import Xv6.Vm.ExecStack
import Xv6.Laws.Prompt
import Xv6.Laws.Idle
import Xv6.Laws.Fair
import Xv6.Laws.Tickets
import Xv6.Laws.Period
import Xv6.Laws.Waitx
import Xv6.Laws.Sigreturn
import Xv6.Laws.Reap
import Xv6.Laws.Syscount
import Xv6.Laws.Kill
import Xv6.Smp.RoundRobin
import Xv6.Smp.Tree
import Xv6.Smp.Times
import Xv6.Smp.Queues
import Xv6.Smp.Locking
