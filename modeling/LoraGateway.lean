import LoraGateway.Lib.Machine
import LoraGateway.Lib.Loop
import LoraGateway.Lib.Fifo
import LoraGateway.Lib.Ring
import LoraGateway.Lib.Table
import LoraGateway.Lib.Tally
import LoraGateway.Lib.Loans
import LoraGateway.Lib.Blocks
import LoraGateway.Lib.Bitmap
import LoraGateway.Lib.Bytes
import LoraGateway.Lib.Spans
import LoraGateway.Lib.Decimal
import LoraGateway.Lib.OnesSum
import LoraGateway.Os.Sem
import LoraGateway.Os.EventPool
import LoraGateway.Os.SemRefines
import LoraGateway.SysArch.SemWait
import LoraGateway.SysArch.Mbox
import LoraGateway.SysArch.MboxInvariant
import LoraGateway.SysArch.MboxLog
import LoraGateway.SysArch.MboxQueue
import LoraGateway.SysArch.MboxTokens
import LoraGateway.SysArch.MboxPost
import LoraGateway.SysArch.WaitResult
import LoraGateway.SysArch.Objects
import LoraGateway.SysArch.MboxLock
import LoraGateway.SysArch.MboxCall
import LoraGateway.SysArch.MboxProgress
import LoraGateway.SysArch.Thread
import LoraGateway.SysArch.ThreadRace
import LoraGateway.Enc28j60.Driver
import LoraGateway.Enc28j60.InitRegs
import LoraGateway.Enc28j60.Ahead
import LoraGateway.Enc28j60.Transmit
import LoraGateway.Enc28j60.Receive
import LoraGateway.Enc28j60.ReceiveLength
import LoraGateway.Enc28j60.Send
import LoraGateway.Netif.PacketSend
import LoraGateway.Netif.Loopback
import LoraGateway.Netif.SendPath
import LoraGateway.Netif.SendRace
import LoraGateway.Netif.FrameSize
import LoraGateway.Netif.Input
import LoraGateway.Netif.InputLedger
import LoraGateway.Netif.InputProgress
import LoraGateway.Netif.ProcessMac
import LoraGateway.Arp.EtharpRun
import LoraGateway.Core.HeapRun
import LoraGateway.Core.IpRoundTrip
import LoraGateway.Core.Timers
import LoraGateway.Core.TimerWait
import LoraGateway.Netapp.DhcpTask
import LoraGateway.Netapp.PingPcb
import LoraGateway.Netapp.PingEcho
import LoraGateway.Netapp.Startup
import LoraGateway.Netapp.TcpServers
import LoraGateway.Netapp.TcpClient
import LoraGateway.Netapp.ClientPcbs
import LoraGateway.Netapp.NoCopy
import LoraGateway.Netapp.DhcpReport
import LoraGateway.Bsp.SendString
import LoraGateway.Bsp.Printf
