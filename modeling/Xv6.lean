import Xv6.Bio.Transparent
import Xv6.Dev.Completion
import Xv6.Dev.Console
import Xv6.Dev.Uart
import Xv6.Exec.Process
import Xv6.File.Exact
import Xv6.Fs.Filewrite
import Xv6.Fs.Namex
import Xv6.Fs.Reuse
import Xv6.Fs.ShortWrite
import Xv6.Grep.Lines
import Xv6.Log.Crash
import Xv6.Log.GroupCommit
import Xv6.Mem.PageMap
import Xv6.Mkfs.Agree
import Xv6.Pipe.Wakeup
import Xv6.Proc.Killed
import Xv6.Proc.Lives
import Xv6.Proc.Sleeplock
import Xv6.Proc.Times
import Xv6.Proc.Waitx
import Xv6.Sched.Aging
import Xv6.Sched.DynamicPriority
import Xv6.Sched.MlfqQueues
import Xv6.Sched.Passes
import Xv6.Sched.Shares
import Xv6.Sh.Terminate
import Xv6.Trap.OnTime
import Xv6.User.Umalloc
