import Vsf.Lib.Chain
import Vsf.Lib.RingBuf
import Vsf.Buffer.Queue
import Vsf.Buffer.Fifo
import Vsf.Lib.ByteMem
import Vsf.Buffer.Bufmgr
import Vsf.Buffer.BufmgrList
import Vsf.Buffer.BufmgrHeap
import Vsf.Buffer.BufmgrMalloc
import Vsf.Buffer.BufmgrFree
import Vsf.Buffer.BufmgrRuns
import Vsf.Framework.Evtq
import Vsf.Framework.EvtqRing
import Vsf.Framework.EvtqRuns
import Vsf.Framework.EvtqOrder
import Vsf.Framework.EvtqFini
import Vsf.Framework.Sync
import Vsf.Framework.Timer
import Vsf.Framework.TimerRuns
import Vsf.Buffer.Multibuf
import Vsf.Framework.TimerWrap
import Vsf.Buffer.Stream
import Vsf.Net.Output
import Vsf.Net.Tcp
import Vsf.Net.TcpInput
import Vsf.Net.TcpRuns
import Vsf.Net.TcpReceive
import Vsf.Net.TcpDeliver
import Vsf.Net.TcpAck
import Vsf.Net.TcpSend
import Vsf.Net.TcpDispose
import Vsf.Net.Udp
import Vsf.Net.TcpOwner
import Vsf.Net.TcpSettled
import Vsf.Net.TcpHead
import Vsf.Net.TcpConnect
import Vsf.Net.Sockets
import Vsf.Net.Ports
import Vsf.Net.TcpListen
import Vsf.Lib.FifoMap
import Vsf.Net.Arp
import Vsf.Net.Receive
import Vsf.Lib.ByteOrder
import Vsf.Net.Dhcpd
import Vsf.Net.Dhcpc
import Vsf.Lib.CStr
import Vsf.Net.ArpClient
import Vsf.Net.Httpc
import Vsf.Net.HttpcGet
import Vsf.Net.Httpd
import Vsf.Net.Host
import Vsf.Net.HostRuns
import Vsf.File.Dentry
import Vsf.File.DentryCodec
import Vsf.File.DentryInPlace
import Vsf.File.FakeFatAlike
import Vsf.File.FakeFatBack
import Vsf.File.FakeFatBackDir
import Vsf.File.FakeIso
import Vsf.File.FakeIsoLayout
import Vsf.File.FakeIsoPath
import Vsf.Lib.NextFit
import Vsf.File.FakeIsoDir
import Vsf.Net.Telnetd
import Vsf.File.Fat
import Vsf.File.FatRead
import Vsf.File.Vfs
import Vsf.File.Vsfile
import Vsf.Mal.Embflash
import Vsf.Mal.Malstream
import Vsf.Mal.Mim
import Vsf.Mal.Scsi
import Vsf.Mal.ScsiAddress
import Vsf.Usb.MscBot
import Vsf.Usb.Usbd
import Vsf.Usb.UsbdIn
import Vsf.Usb.UsbdOut
import Vsf.Buffer.BitField
import Vsf.Buffer.Bittool
import Vsf.Buffer.Pool
import Vsf.Input.Vsfhid
import Vsf.Input.VsfhidInput
import Vsf.Lib.Loop
import Vsf.Shell.Vsfshell
import Vsf.Usb.Cdc
import Vsf.Usb.Ch9
import Vsf.Usb.Hid
import Vsf.Usb.Usbh
import Vsf.Usb.UsbhConfig
import Vsf.Usb.UsbhProbe
import Vsf.Framework.Hsm
import Vsf.Lib.Heap
import Vsf.Lib.OnesComplement
import Vsf.Net.Checksum
import Vsf.Net.Demux
import Vsf.Net.Frame
import Vsf.Net.Icmp
import Vsf.Tool.Dynarr
import Vsf.Tool.DynarrRun
import Vsf.Tool.Dynpool
import Vsf.Tool.DynpoolGc
import Vsf.Tool.Dynstack
import Vsf.File.FatDir
import Vsf.File.FatDirRun
import Vsf.Net.DhcpOpt
import Vsf.Net.Dns
import Vsf.Net.DnsAnswer
import Vsf.Net.DnsMessage
import Vsf.Net.HttpdArg
import Vsf.Net.HttpdReq
import Vsf.File.FatEntry
import Vsf.Lib.Paging
import Vsf.File.FakeFatPaging
import Vsf.Usb.UsbhMatch
import Vsf.Usb.UsbhDescriptor
import Vsf.Tool.DynpoolBound
import Vsf.File.FatDbr
import Vsf.Tool.DynarrAtomic
import Vsf.Mal.Malfs
import Vsf.File.FatMount
import Vsf.Usb.Rndis
import Vsf.Input.VsfhidFail
import Vsf.Shell.VsfshellCmd
import Vsf.Buffer.BitReverse
import Vsf.Tool.Crc
import Vsf.Tool.DynstackExt
import Vsf.Buffer.BufmgrWrap
