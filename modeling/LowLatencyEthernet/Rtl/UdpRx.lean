import LowLatencyEthernet.Sync.Mealy
import LowLatencyEthernet.Rtl.Lanes

namespace LowLatencyEthernet.UdpRx
set_option autoImplicit true

/-! The UDP receiver `udp_rx`, `DATA_W = 16`, with `LEN_W = 2` as `eth_rx` sets it. -/

structure Params where
  srcPort : BitVec 16
  dstPort : BitVec 16
deriving DecidableEq, Repr

structure State where
  fsmIdleQ : Bool
  fsmHeadQ : Bool
  fsmDataQ : Bool
  cntQ : BitVec 16
  bypassVQ : Bool
  fsmHead2q : Bool
deriving DecidableEq, Repr, Inhabited

structure In where
  cancelI : Bool
  validI : Bool
  startI : Bool
  termI : Bool
  termLenI : BitVec 2
  dataI : Word
  lenI : BitVec 2
  ipCsErrI : Bool
deriving DecidableEq, Repr, Inhabited

structure Out where
  validO : Bool
  startO : Bool
  termO : Bool
  termLenO : BitVec 2
  dataO : Word
  lenO : BitVec 2
deriving DecidableEq, Repr

def cntRst (s : State) (i : In) : Bool := s.fsmIdleQ && !i.startI

def cntAdd (s : State) (i : In) : BitVec 16 :=
  s.cntQ + if i.validI then i.lenI.setWidth 16 else 0

def cntNext (s : State) (i : In) : BitVec 16 := if cntRst s i then 0 else cntAdd s i

def cntEn (s : State) (i : In) : Bool := s.fsmIdleQ || i.validI

def endHeadV (s : State) (i : In) : Bool := (cntAdd s i).extractLsb' 0 4 == 8

def srcPortCntV (s : State) : Bool := s.cntQ.extractLsb' 0 4 == 0 && s.fsmIdleQ

def dstPortCntV (s : State) : Bool := s.cntQ.extractLsb' 0 4 == 2 && s.fsmHeadQ

def srcDcdV (p : Params) (s : State) (i : In) : Bool :=
  srcPortCntV s && (swapLanes i.dataI != p.srcPort)

def dstDcdV (p : Params) (s : State) (i : In) : Bool :=
  dstPortCntV s && (swapLanes i.dataI != p.dstPort)

def dcdV (p : Params) (s : State) (i : In) : Bool :=
  i.validI && (srcDcdV p s i || dstDcdV p s i || i.ipCsErrI)

def bypassVNext (p : Params) (s : State) (i : In) : Bool :=
  if cntRst s i then false else s.bypassVQ || dcdV p s i

def fsmIdleNext (s : State) (i : In) : Bool :=
  i.cancelI || (s.fsmIdleQ && !i.startI) || (s.fsmDataQ && i.termI)

def fsmHeadNext (s : State) (i : In) : Bool :=
  !i.cancelI && ((s.fsmIdleQ && i.startI) || (s.fsmHeadQ && !endHeadV s i))

def fsmDataNext (s : State) (i : In) : Bool :=
  !i.cancelI && ((s.fsmHeadQ && endHeadV s i) || (s.fsmDataQ && !i.termI))

-- The register of `bypass_v_q` is enabled by `fsm_idle_q`, the signal `bypass_en` drives nothing.
def next (p : Params) (nreset : Bool) (s : State) (i : In) : State where
  fsmIdleQ := if nreset then (if i.validI then fsmIdleNext s i else s.fsmIdleQ) else true
  fsmHeadQ := if nreset then (if i.validI then fsmHeadNext s i else s.fsmHeadQ) else false
  fsmDataQ := if nreset then (if i.validI then fsmDataNext s i else s.fsmDataQ) else false
  cntQ := if cntEn s i then cntNext s i else s.cntQ
  bypassVQ := if s.fsmIdleQ then bypassVNext p s i else s.bypassVQ
  fsmHead2q := if i.validI then s.fsmHeadQ else s.fsmHead2q

def validO (s : State) (i : In) : Bool := s.fsmDataQ && i.validI && !s.bypassVQ

def startO (s : State) : Bool := s.fsmDataQ && s.fsmHead2q

def out (s : State) (i : In) : Out where
  validO := validO s i
  startO := startO s
  termO := i.termI
  termLenO := i.termLenI
  dataO := i.dataI
  lenO := i.lenI

def machine (p : Params) : Sync.Mealy State In Out := ⟨next p true, out⟩

end LowLatencyEthernet.UdpRx
