import Xv6.Log.Recovery
import Xv6.Aio.Queue
import Xv6.Foundations.Mutex
import Xv6.Log.GroupCommit
import Xv6.Log.Reservation
import Xv6.Log.Operations
import Xv6.Aio.Lifetime
import Xv6.Foundations.Program
import Xv6.Fs.Layout
import Xv6.Fs.Kernel
import Xv6.Fs.Calls
import Xv6.Foundations.Ownership
import Xv6.Fs.Blocks
import Xv6.Fs.Contents
import Xv6.Fs.Directory
import Xv6.Proc.Sleeplock
import Xv6.Syscall.Arguments
import Xv6.Proc.Lifecycle
import Xv6.Proc.Kill
import Xv6.Bio.Cache
import Xv6.Bio.Refinement
import Xv6.Foundations.DoublyLinked
import Xv6.Bio.Lru
import Xv6.Foundations.SlotTable
import Xv6.Foundations.RadixTree
import Xv6.Vm.Machine
import Xv6.Vm.PageTable
import Xv6.Vm.AddressSpace
import Xv6.Vm.FlatMap
import Xv6.Vm.Holdings
import Xv6.Vm.Spaces
import Xv6.Vm.Process
import Xv6.Vm.UserMemory
import Xv6.Vm.Costs
import Xv6.Vm.Copyout
import Xv6.Vm.CopyMemory
import Xv6.Vm.ForkClean
import Xv6.Foundations.Ring
import Xv6.Pipe.Fifo
import Xv6.Pipe.Wakeup
import Xv6.Console.Input
import Xv6.Console.Reads
import Xv6.Foundations.LinkedList
import Xv6.Ide.Driver
import Xv6.Ide.Queue
import Xv6.Ide.Refinement
import Xv6.Coroutine.LiveList
import Xv6.Coroutine.RunAll
import Xv6.Foundations.CircularList
import Xv6.User.Umalloc
import Xv6.User.FreeList
import Xv6.User.HeapRuns
import Xv6.User.Memmove
import Xv6.User.Match
import Xv6.User.Grep
import Xv6.File.Table
import Xv6.File.Lifetime
import Xv6.Fs.LogSpace
import Xv6.Fs.SharedWrite
import Xv6.Shell.Grammar
import Xv6.Shell.Tokens
import Xv6.Shell.Correct
import Xv6.Fs.OpBudget
import Xv6.Fs.Files
import Xv6.Fs.Lookup
import Xv6.Fs.DirectoryMap
import Xv6.Fs.PathNames
import Xv6.Fs.PathWalk
import Xv6.Mkfs.Append
import Xv6.Mkfs.Build
import Xv6.Mkfs.ReadBack
import Xv6.Shell.Descriptors
import Xv6.Shell.Processes
import Xv6.Shell.Session
import Xv6.Vm.Exec
import Xv6.Vm.Image
import Xv6.Vm.Segments
import Xv6.Vm.ExecOutcome
import Xv6.Vm.ExecFailure
import Xv6.Vm.ExecImage
