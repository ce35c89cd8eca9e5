import Mos.Lib.Prog
import Mos.Lib.TailQueue
import Mos.Lib.RefCount
import Mos.Lib.Ring
import Mos.Lib.Run
import Mos.Lib.Rota
import Mos.Lib.Path
import Mos.Kern.State
import Mos.Kern.Bits
import Mos.Kern.Pmap
import Mos.Kern.AddressSpace
import Mos.Kern.PmapSpec
import Mos.Kern.Tlbex
import Mos.Kern.Env
import Mos.Kern.Syscall
import Mos.Kern.EnvSpec
import Mos.Kern.BootSpec
import Mos.Kern.RefCounting
import Mos.Kern.SchedList
import Mos.Kern.Spaces
import Mos.Kern.Reach
import Mos.Kern.Entries
import Mos.Kern.Envs
import Mos.Kern.Window
import Mos.Kern.Strangers
import Mos.Kern.Ipc
import Mos.Kern.UserMode
import Mos.Kern.DoSyscall
import Mos.Kern.UserAccess
import Mos.Kern.NoPanic
import Mos.Kern.Coherence
import Mos.Kern.Overflow
import Mos.Kern.Counter
import Mos.Kern.EnvIds
import Mos.Kern.PageMap
import Mos.Kern.SentPage
import Mos.Kern.Failures
import Mos.Kern.Mailbox
import Mos.Kern.DeviceWindow
import Mos.Kern.RoundRobin
import Mos.Kern.Release
import Mos.Kern.ElfLoad
import Mos.Lib.While
import Mos.Kern.Queue
import Mos.Kern.Strings
import Mos.Fs.OpenTable
import Mos.Fs.OpenSlots
import Mos.Fs.Ide
import Mos.Fs.IdeIsolation
import Mos.Fs.IdeTransfer
import Mos.Fs.Sync
import Mos.Fs.Own
import Mos.Fs.OwnRun
import Mos.Fs.OwnDir
import Mos.Fs.Serv
import Mos.Fs.Handles
import Mos.Fs.Fat
import Mos.Fs.FatAlloc
import Mos.Fs.FatMem
import Mos.Fs.FatCut
import Mos.Fs.FatMap
import Mos.Fs.FatOverrun
import Mos.Fs.FatRead
import Mos.Fs.FatSeen
import Mos.Fs.FatFlush
import Mos.Fs.FatWalk
import Mos.Fs.FatGrow
import Mos.Fs.FatFresh
import Mos.Fs.FatArith
import Mos.Fs.FatDelete
import Mos.User.Pipe
import Mos.User.PipeFifo
import Mos.User.PipeEof
import Mos.User.Fd
import Mos.User.PipeClosed
import Mos.User.Fork
import Mos.User.PipeInherit
import Mos.User.Cow
import Mos.User.ForkIsolation
import Mos.User.ForkScan
import Mos.User.Fsipc
import Mos.User.Rpc
import Mos.User.Sh
import Mos.Fs.Bitmap
import Mos.Fs.Truncate
import Mos.Fs.FatDir
import Mos.Fs.FatEntries
import Mos.Fs.Tree
import Mos.Fs.Removal
import Mos.Fs.Histories
import Mos.Fs.SetSize
import Mos.Fs.Fsformat
import Mos.Fs.FailedCreate
import Mos.Fs.FatSlots
import Mos.Fs.Neat
import Mos.Fs.FreshFile
import Mos.User.File
import Mos.User.OpenMode
import Mos.User.FileStat
import Mos.User.Ftruncate
import Mos.User.Routing
import Mos.User.Print
import Mos.User.PrintFmt
import Mos.User.Debugf
import Mos.User.Readline
import Mos.User.ShArgs
import Mos.User.Spawn
import Mos.Fs.Reverse
import Mos.Fs.Builder
import Mos.Fs.BuilderTree
import Mos.Fs.BuilderSpec
import Mos.Fs.BuilderRun
import Mos.Fs.ByteOrder
import Mos.Fs.BuilderCopy
import Mos.Fs.BuilderImage
import Mos.Fs.ImageMount
import Mos.Fs.ImageTree
import Mos.Kern.Waiting
import Mos.User.Pipeline
import Mos.Kern.TlbMod
import Mos.Lib.Returns
import Mos.User.CowFault
import Mos.Lib.Mapping
import Mos.User.FileData
