import Xv6.Lib.Run
import Xv6.Lib.LinkedQueue
import Xv6.Lib.Levels
import Xv6.Lib.Multilevel
import Xv6.Lib.RedoLog
import Xv6.Param
import Xv6.Memmove
import Xv6.Proc.Table
import Xv6.Proc.Queues
import Xv6.Proc.Ready
import Xv6.Proc.Sections
import Xv6.Proc.Kernel
import Xv6.Proc.Owners
import Xv6.Proc.Steps
import Xv6.Proc.Invariant
import Xv6.Proc.Order
import Xv6.Proc.Quantum
import Xv6.Proc.Fresh
import Xv6.Proc.Killed
import Xv6.Proc.Family
import Xv6.Proc.Life
import Xv6.Proc.ExitWait
import Xv6.Log.Bcache
import Xv6.Log.Machine
import Xv6.Log.Steps
import Xv6.Log.Groups
import Xv6.Log.Journal
import Xv6.Log.Commits
import Xv6.Log.Recovery
import Xv6.Log.CrashAtomicity
import Xv6.Log.Admission
import Xv6.Lib.WrappingRing
import Xv6.Pipe.Machine
import Xv6.Pipe.Steps
import Xv6.Pipe.Fifo
import Xv6.Pipe.Sleepers
import Xv6.Bio.Cache
import Xv6.Bio.Steps
import Xv6.Bio.Coherence
import Xv6.Lib.Ring
import Xv6.Lib.Program
import Xv6.Lib.LittleEndian
import Xv6.Lib.Ownership
import Xv6.Bio.References
import Xv6.Fs.Format
import Xv6.Fs.Codec
import Xv6.Fs.Store
import Xv6.Fs.Layout
import Xv6.Fs.Inodes
import Xv6.Fs.Directories
import Xv6.Fs.Kernel
import Xv6.Fs.Blocks
import Xv6.Fs.Contents
import Xv6.Fs.Cache
import Xv6.Fs.Lookup
import Xv6.Mkfs.Image
import Xv6.Mkfs.Blocks
import Xv6.Mkfs.Append
import Xv6.Mkfs.Build
import Xv6.Mkfs.Relied
import Xv6.Mkfs.Booted
import Xv6.Fs.Files
import Xv6.Fs.Paths
import Xv6.Mkfs.ReadBack
import Xv6.Fs.Table
import Xv6.Fs.Filewrite
import Xv6.Fs.Sharing
import Xv6.Vm.Paging
import Xv6.Vm.Exec
import Xv6.Vm.Space
import Xv6.Vm.Frames
import Xv6.Vm.Mapping
import Xv6.Vm.Unmap
import Xv6.Vm.UserMemory
import Xv6.Vm.Directories
import Xv6.Vm.Boot
import Xv6.Vm.Dealloc
import Xv6.Vm.Fork
import Xv6.Vm.Growproc
import Xv6.Vm.Image
import Xv6.Vm.Stack
import Xv6.Vm.Arguments
import Xv6.Vm.Fetch
import Xv6.Vm.Calls
import Xv6.Vm.SysExec
import Xv6.Vm.Machine
import Xv6.Vm.Account
import Xv6.Vm.Syscall
import Xv6.Vm.Places
import Xv6.Vm.Runs
import Xv6.Vm.Segments
import Xv6.Vm.ExecImage
import Xv6.Sleep.Machine
import Xv6.Sleep.Wakeups
import Xv6.Sleep.Sleepers
import Xv6.Sleep.Sleeplock
import Xv6.Shell.Parser
import Xv6.Shell.Grammar
import Xv6.Shell.Tokens
import Xv6.Shell.Reads
import Xv6.Shell.Parses
import Xv6.Shell.Accepts
import Xv6.Grep.Matcher
import Xv6.Grep.Lines
import Xv6.Boot.Mp
import Xv6.Shell.Words
import Xv6.Shell.Runcmd
import Xv6.Ide.Driver
import Xv6.Ide.Queue
import Xv6.Interrupts.Machine
import Xv6.Interrupts.Nesting
import Xv6.Console.Machine
import Xv6.Console.Buffer
import Xv6.Console.Lines
