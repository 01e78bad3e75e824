import Xv6.Library.OnesComplement
import Xv6.Net.Address
import Xv6.Net.Receive
import Xv6.Net.Transmit
import Xv6.Net.Icmp
import Xv6.Fs.Admission
import Xv6.Fs.FileContents
import Xv6.Fs.WriteChunk
import Xv6.Fs.Namei
import Xv6.Fs.Relink
import Xv6.Fs.Link
import Xv6.Fs.CommitBuffers
import Xv6.Fs.IdeErrors
import Xv6.Fs.BufferList
import Xv6.Proc.Sleeplock
import Xv6.Proc.PipeWakeup
import Xv6.Sched.Parents
import Xv6.Sched.Killed
import Xv6.Sched.Pids
import Xv6.Pci.Topology
import Xv6.Pci.FuncEnable
import Xv6.Net.ArpReply
import Xv6.Net.AddressParsers
import Xv6.Net.ParseArp
import Xv6.Net.Attach
import Xv6.Net.Syscalls
import Xv6.Net.SendRace
import Xv6.Fs.MkfsImage
import Xv6.Fs.MkfsRead
import Xv6.Fs.MkfsLimits
import Xv6.Vm.Copy
import Xv6.Vm.Exhausted
import Xv6.Vm.Resize
import Xv6.Vm.Copyout
import Xv6.Proc.Fork
import Xv6.Proc.SysOpen
import Xv6.Exec.Image
import Xv6.Exec.Load
import Xv6.Exec.Push
import Xv6.Exec.Stack
import Xv6.Console.Discipline
import Xv6.Shell.Runcmd
import Xv6.Proc.Ownership
import Xv6.User.Memmove
import Xv6.User.Grep
import Xv6.Boot.Mp
import Xv6.Boot.Bootmain
import Xv6.User.UmallocRoom
import Xv6.Library.Phases
import Xv6.Spin.Spinlock
import Xv6.Vm.Mapping
import Xv6.Spin.Nesting
import Xv6.Spin.Threads
import Xv6.Spin.Handover
import Xv6.Spin.Interrupts
import Xv6.Fs.Durable
import Xv6.Fs.InodeCache
import Xv6.Fs.InodeCoherence
import Xv6.Library.Parallel
import Xv6.Library.Shares
import Xv6.Proc.FileActions
import Xv6.Proc.FileCalls
import Xv6.Proc.FileRuns
import Xv6.Fs.Freed
import Xv6.Fs.HeldInodes
import Xv6.Fs.LinkNode
import Xv6.Fs.OpenNode
import Xv6.Fs.TreeCalls
import Xv6.Fs.TreeKept
