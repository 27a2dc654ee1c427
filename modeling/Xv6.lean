import Xv6.Bcache
import Xv6.Console.Discipline
import Xv6.Fs.Counts
import Xv6.Fs.Icache
import Xv6.Fs.Names
import Xv6.Fs.Paths
import Xv6.Fs.SharedFile
import Xv6.Grep.Lines
import Xv6.Ide
import Xv6.Lock.Interrupts
import Xv6.Lock.Sleep
import Xv6.Log.Recovery
import Xv6.Memmove
import Xv6.Mkfs.ReadBack
import Xv6.Pipe.Wakeup
import Xv6.Ptable.Fresh
import Xv6.Ptable.Sigsend
import Xv6.Sh.Parsecmd
import Xv6.Signal.Nested
import Xv6.Signal.Privilege
import Xv6.Signal.Timing
import Xv6.Signal.UserAddr
import Xv6.Umalloc.Sbrk
import Xv6.Uthread.Binary
import Xv6.Uthread.Blocking
import Xv6.Uthread.Join
import Xv6.Uthread.Released
import Xv6.Uthread.RoundRobin
import Xv6.Uthread.Sleep
import Xv6.Vm.Conserve
