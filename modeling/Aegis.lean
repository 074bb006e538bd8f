import Aegis.SignalRoundTrip
import Aegis.SignalMask
import Aegis.PolicyGrammar
import Aegis.TaskDeath
import Aegis.Pipe
import Aegis.FreeRanges
import Aegis.PrivateFrames
import Aegis.VmaAgree
import Aegis.ForkCopy
import Aegis.SpawnStack
import Aegis.SignalSend
import Aegis.ShellSandbox
import Aegis.ProcFamily
import Aegis.VmaSharing
import Aegis.PipeRefs
import Aegis.Futex
import Aegis.NoLostWakeup
import Aegis.MemfdSize
import Aegis.Ext2FileRuns
import Aegis.GptEmulation
import Aegis.GptInstall
import Aegis.TcpStream
import Aegis.TcpTimer
import Aegis.Pty
import Aegis.Tty
import Aegis.SockMemory
import Aegis.NetAuthority
import Aegis.AcceptQueues
import Aegis.OpenPath
import Aegis.Fairness
import Aegis.LumenFrames
import Aegis.UnixLock
import Aegis.WriteCalls
import Aegis.UdpRing
import Aegis.TermSelection
import Aegis.Random
