import Acso.Arm.ProgramCounter
import Acso.Arm.Progress
import Acso.Arm.StoreLoad
import Acso.Arm.ZeroRegister
import Acso.Arm.Running
import Acso.Arm.Session
import Acso.Arm.Frame
import Acso.Arm.Encoding
import Acso.Arm.Slack
import Acso.Arm.HalfWord
import Acso.Arm.Compare
import Acso.Arm.ShiftedRegister
import Acso.Arm.ImmediateShift
import Acso.Arm.Shifting
import Acso.Arm.MemoryDump
import Acso.Arm.Dialogue
import Acso.FileSystem.Bounds
import Acso.FileSystem.PathWalk
import Acso.FileSystem.InodeArea
import Acso.FileSystem.Logging
import Acso.FileSystem.InodeDump
import Acso.FileSystem.DirectoryArray
import Acso.FileSystem.Resolution
import Acso.FileSystem.ShortRead
import Acso.FileSystem.PathBounds
import Acso.FileSystem.InodeNumbers
import Acso.Processes.Delivery
import Acso.Processes.Streams
import Acso.Shell.Composition
import Acso.Shell.QuotedPipes
import Acso.Shell.Stages
import Acso.ThreadPool.Destruction
import Acso.ThreadPool.Wait
import Acso.ThreadPool.WakeUp
import Acso.ThreadPool.Shutdown
import Acso.ThreadPool.Returning
import Acso.ThreadPool.Atomic
import Acso.ThreadPool.Fifo
import Acso.ThreadPool.StrayWrites
import Acso.Semaphores.Settling
import Acso.FileSystem.StoredGraph
import Acso.FileSystem.DiskCalls
import Acso.FileSystem.Footprint
import Acso.FileSystem.Rewriting
import Acso.FileSystem.Layout
import Acso.FileSystem.DiskImageAccess
import Acso.FileSystem.ChecksumText
