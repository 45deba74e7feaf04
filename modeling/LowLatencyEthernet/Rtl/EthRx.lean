import LowLatencyEthernet.Rtl.MacRx
import LowLatencyEthernet.Rtl.Ipv4Rx
import LowLatencyEthernet.Rtl.UdpRx

namespace LowLatencyEthernet.EthRx
set_option autoImplicit true

/-! The receive path `eth_rx`, `DATA_W = 16` and `UDP = 1`: MAC, IPv4 and UDP in a row. -/

structure Params where
  vlanTag : Bool
  matchIpSrcAddr : Bool
  matchIpDstAddr : Bool
  ipSrcAddr : BitVec 32
  ipDstAddr : BitVec 32
  srcPort : BitVec 16
  dstPort : BitVec 16
deriving DecidableEq, Repr

def protUdp : Byte := 17

structure State where
  mMacRx : MacRx.State
  mIpv4Rx : Ipv4Rx.State
  mUdpRx : UdpRx.State
deriving DecidableEq, Repr, Inhabited

structure In where
  phyCancelI : Bool
  macValidI : Bool
  macDataI : Word
  macStartI : Bool
  macTermI : Bool
  macLenI : BitVec 2
deriving DecidableEq, Repr, Inhabited

structure Out where
  appValidO : Bool
  appStartO : Bool
  appTermO : Bool
  appTermLenO : BitVec 2
  appCancelO : Bool
  appDataO : Word
  appLenO : BitVec 2
deriving DecidableEq, Repr

def macParams (p : Params) : MacRx.Params := ⟨p.vlanTag⟩

def ipParams (p : Params) : Ipv4Rx.Params :=
  ⟨p.matchIpSrcAddr, p.matchIpDstAddr, p.ipSrcAddr, p.ipDstAddr, protUdp⟩

def udpParams (p : Params) : UdpRx.Params := ⟨p.srcPort, p.dstPort⟩

def macIn (i : In) : MacRx.In where
  cancelI := i.phyCancelI
  validI := i.macValidI
  dataI := i.macDataI
  startI := i.macStartI
  termI := i.macTermI
  lenI := i.macLenI

def macOut (s : State) (i : In) : MacRx.Out := MacRx.out s.mMacRx (macIn i)

def ipIn (s : State) (i : In) : Ipv4Rx.In where
  cancelI := i.phyCancelI
  validI := (macOut s i).validO
  startI := (macOut s i).startO
  dataI := (macOut s i).dataO
  lenI := (macOut s i).lenO

def ipOut (s : State) (i : In) : Ipv4Rx.Out := Ipv4Rx.out s.mIpv4Rx (ipIn s i)

def udpIn (s : State) (i : In) : UdpRx.In where
  cancelI := i.phyCancelI
  validI := (ipOut s i).validO
  startI := (ipOut s i).startO
  termI := (ipOut s i).termO
  termLenI := (ipOut s i).termLenO
  dataI := (ipOut s i).dataO
  lenI := (ipOut s i).lenO
  ipCsErrI := (ipOut s i).csErrO

def udpOut (s : State) (i : In) : UdpRx.Out := UdpRx.out s.mUdpRx (udpIn s i)

def next (p : Params) (nreset : Bool) (s : State) (i : In) : State where
  mMacRx := MacRx.next (macParams p) nreset s.mMacRx (macIn i)
  mIpv4Rx := Ipv4Rx.next (ipParams p) nreset s.mIpv4Rx (ipIn s i)
  mUdpRx := UdpRx.next (udpParams p) nreset s.mUdpRx (udpIn s i)

def out (s : State) (i : In) : Out where
  appValidO := (udpOut s i).validO
  appStartO := (udpOut s i).startO
  appTermO := (udpOut s i).termO
  appTermLenO := (udpOut s i).termLenO
  appCancelO := i.phyCancelI
  appDataO := (udpOut s i).dataO
  appLenO := (udpOut s i).lenO

def machine (p : Params) : Sync.Mealy State In Out := ⟨next p true, out⟩

def reset (p : Params) (s : State) (i : In) : State := next p false s i

end LowLatencyEthernet.EthRx
