import LowLatencyEthernet.Rtl.AppFraming
import LowLatencyEthernet.Beat.Boundary
import LowLatencyEthernet.Beat.Loopback
import LowLatencyEthernet.Beat.SentChecksum
import LowLatencyEthernet.Beat.TxBody
import LowLatencyEthernet.Beat.UdpPayloads
import LowLatencyEthernet.Beat.MacResync
import LowLatencyEthernet.Beat.Ipv4Checksum
import LowLatencyEthernet.Beat.TxCounter
import LowLatencyEthernet.Beat.CrcWidths
import LowLatencyEthernet.Beat.WideCheck
import LowLatencyEthernet.Beat.WrongBits
import LowLatencyEthernet.Tcp.Lifecycle
import LowLatencyEthernet.Tcp.Accounting
import LowLatencyEthernet.Tcp.HeaderCapture
import LowLatencyEthernet.Tb.ListRuns
import LowLatencyEthernet.Tb.Cosim
import LowLatencyEthernet.Tb.VpiPorts
import LowLatencyEthernet.Tb.SimpleTxFrames
import LowLatencyEthernet.Tb.MacTbRuns
