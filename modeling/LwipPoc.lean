import LwipPoc.Port.TimerDiscipline
import LwipPoc.Core.TcpipLoop
import LwipPoc.Netif.EtharpQueues
import LwipPoc.Core.Mem.Windows
import LwipPoc.Netif.EtharpOwners
import LwipPoc.Tcp.Congestion
import LwipPoc.Api.SelectWakeups
import LwipPoc.Cwrap.WrapperLwip
import LwipPoc.Core.PbufSearch
import LwipPoc.Core.PbufAlloc
import LwipPoc.Netif.Ppp.VjLossless
import LwipPoc.Tcp.SendBuffer
import LwipPoc.Ipv4.ForwardChksum
import LwipPoc.Ipv4.IpAddrText
import LwipPoc.Ipv4.IcmpError
import LwipPoc.Ipv4.FragReass
import LwipPoc.Ipv4.InetAton
import LwipPoc.Netif.EtharpCache
import LwipPoc.Core.TimeoutSums
import LwipPoc.Tcp.InputHeader
import LwipPoc.Tcp.FastTimer
import LwipPoc.Tcp.TxProbe
import LwipPoc.Core.Dns.Bounds
import LwipPoc.Core.Dns.Oldest
import LwipPoc.Netif.SlipQueue
import LwipPoc.Core.Udp.Chksum
import LwipPoc.Core.MempSanity
import LwipPoc.Core.NewPort
import LwipPoc.Core.Snmp.Asn1Accept
import LwipPoc.Tcp.OosInsert
import LwipPoc.Core.Snmp.OidRoundTrip
import LwipPoc.Core.Dhcp.Octets
import LwipPoc.Api.Recvfrom
import LwipPoc.Netif.Ppp.SerialSound
import LwipPoc.Netif.Ppp.FsmClose
import LwipPoc.Netif.Ppp.IpcpNaks
import LwipPoc.Core.Dhcp.ClientHistory
import LwipPoc.Tcp.SentBytes
