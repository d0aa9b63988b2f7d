import Cyanos.Mm.BuddyRun
import Cyanos.Mm.FrameSafety
import Cyanos.Mm.FrameReturn
import Cyanos.Arch.Aarch64.Window
import Cyanos.Kernel.Caller.Covered
import Cyanos.Kernel.WriteXorExecute
import Cyanos.Kernel.UserRegions
import Cyanos.Sched.Inherits
import Cyanos.Kernel.LiveRoots
import Cyanos.Kernel.ThreadImage
import Cyanos.Sched.Exclusion
import Cyanos.Sched.ReapingRun
import Cyanos.Sched.RoundTrip
import Cyanos.Sched.SignalTable
import Cyanos.Ipc.Queue
import Cyanos.Sched.Fairness
import Cyanos.Sched.FutexCount
import Cyanos.Sched.ThreadExit
import Cyanos.Arch.SyscallEntry
import Cyanos.Sched.Blocking
import Cyanos.Sched.FutexRoom
import Cyanos.Kernel.OrderCheck
import Cyanos.Mm.LazyCount
import Cyanos.Arch.TableReturn
import Cyanos.Mm.SlabSound
import Cyanos.Kernel.ExecFrame
import Cyanos.Elf.Hostile
import Cyanos.Servers.Vfs.PipeStream
import Cyanos.Servers.Vfs.References
import Cyanos.Servers.Vfs.Names
import Cyanos.Servers.Vfs.ByteVector
import Cyanos.Kernel.Paths
import Cyanos.Servers.Init
import Cyanos.Servers.Vfs.Stdio
import Cyanos.Servers.Vfs.Timers
import Cyanos.Servers.Vfs.Flags
import Cyanos.Drivers.Wifi
import Cyanos.Userland.Malloc
import Cyanos.Mm.Break
import Cyanos.Kernel.Positioned
import Cyanos.Servers.Tools
import Cyanos.Kernel.Memmove
