import Sirius.Drivers.Ahci
import Sirius.Drivers.Keyboard
import Sirius.Drivers.PartitionLaw
import Sirius.Drivers.TtyLaw
import Sirius.Drivers.TtyWait
import Sirius.Fs.CacheLaw
import Sirius.Fs.FatFrame
import Sirius.Fs.FatLaw
import Sirius.Fs.MountLaw
import Sirius.Fs.PathLaw
import Sirius.Fs.PtyLaw
import Sirius.Fs.RamfsFile
import Sirius.Fs.Transfer
import Sirius.Lib.Memcpy
import Sirius.Lib.Memset
import Sirius.Memory.BrkLaw
import Sirius.Memory.CloneLaw
import Sirius.Memory.Permissions
import Sirius.Memory.ScratchWindow
import Sirius.Memory.ShmLaw
import Sirius.Memory.Translators
import Sirius.Net.AcceptOrder
import Sirius.Net.ArpCache
import Sirius.Net.Icmp
import Sirius.Net.RawSocket
import Sirius.Net.TcpChecksum
import Sirius.Net.TcpSequence
import Sirius.Process.Arguments
import Sirius.Process.StackGrowth
import Sirius.Procyon.Circle
import Sirius.Sched.FpuLaw
import Sirius.Sched.ProcessList
import Sirius.Sched.SleepLaw
import Sirius.Sched.Terminate
import Sirius.Sched.Waitpid
import Sirius.Ssh.Authentication
import Sirius.Ssh.ChannelRead
import Sirius.Ssh.Secrecy
import Sirius.User.Fgets
import Sirius.User.HeapLaw
import Sirius.User.ShellPipe
import Sirius.User.Stdio
