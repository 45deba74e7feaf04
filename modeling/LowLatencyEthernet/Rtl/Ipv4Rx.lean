import LowLatencyEthernet.Sync.Mealy
import LowLatencyEthernet.Rtl.Lanes

namespace LowLatencyEthernet
set_option autoImplicit true

/-! The IPv4 receiver `ipv4_rx`, `DATA_W = 16`, and its address filter `ip_addr_match`. -/

namespace IpAddrMatch

structure Params where
  addr : BitVec 32
  msbIdx : BitVec 6

structure State where
  addrDcdMsbVQ : Bool
deriving DecidableEq, Repr, Inhabited

structure In where
  validI : Bool
  dataI : Word
  idxI : BitVec 6
  fsmIdleVI : Bool
  fsmHeadVI : Bool

/-- `LSB_IDX`, which no instance overrides. -/
def lsbIdx (p : Params) : BitVec 6 := p.msbIdx + 1

def addrMsbIdxV (p : Params) (i : In) : Bool := i.idxI == p.msbIdx

def addrMsbEn (p : Params) (i : In) : Bool := (addrMsbIdxV p i && i.validI) || i.fsmIdleVI

def addrDcdMsbVNext (p : Params) (i : In) : Bool :=
  if i.fsmIdleVI then false else p.addr.extractLsb' 16 16 != i.dataI

def addrDcdLsbV (p : Params) (i : In) : Bool :=
  i.validI && (i.idxI == lsbIdx p) && (p.addr.extractLsb' 0 16 != i.dataI)

def matchFailVO (p : Params) (s : State) (i : In) : Bool :=
  i.fsmHeadVI && (s.addrDcdMsbVQ || addrDcdLsbV p i)

def next (p : Params) (s : State) (i : In) : State where
  addrDcdMsbVQ := if addrMsbEn p i then addrDcdMsbVNext p i else s.addrDcdMsbVQ

end IpAddrMatch

namespace Ipv4Rx

structure Params where
  matchSrcAddr : Bool
  matchDstAddr : Bool
  srcAddr : BitVec 32
  dstAddr : BitVec 32
  protocol : Byte
deriving DecidableEq, Repr, Inhabited

structure State where
  fsmIdleQ : Bool
  fsmHeadQ : Bool
  fsmDataQ : Bool
  cntQ : BitVec 16
  ihlQ : BitVec 4
  headChecksumQ : BitVec 16
  csQ : BitVec 16
  csCarryQ : Bool
  srcAddrMatch : IpAddrMatch.State
  dstAddrMatch : IpAddrMatch.State
  bypassVQ : Bool
  totLenQ : BitVec 16
  fsmHead2q : Bool
deriving DecidableEq, Repr, Inhabited

structure In where
  cancelI : Bool
  validI : Bool
  startI : Bool
  dataI : Word
  lenI : BitVec 2
deriving DecidableEq, Repr, Inhabited

structure Out where
  csErrO : Bool
  validO : Bool
  startO : Bool
  termO : Bool
  termLenO : BitVec 2
  cancelO : Bool
  dataO : Word
  lenO : BitVec 2
deriving DecidableEq, Repr

/-- The supported version, in `data_i[7:4]` of the first beat. -/
def version : BitVec 4 := 4

/-- Accepted flag bits: do not fragment. -/
def fragFlag : BitVec 3 := 0b010

def cntAdd (i : In) : BitVec 16 := if i.validI then i.lenI.setWidth 16 else 0

def cntLiteNext (s : State) (i : In) : BitVec 16 := s.cntQ + cntAdd i

def cntRst (s : State) (i : In) : Bool := s.fsmIdleQ && !i.startI

def cntNext (s : State) (i : In) : BitVec 16 := if cntRst s i then 0 else cntLiteNext s i

def cntEn (s : State) (i : In) : Bool := s.fsmIdleQ || i.validI

def ihlNext (i : In) : BitVec 4 := i.dataI.extractLsb' 0 4

def endHeadV (s : State) (i : In) : Bool :=
  decide ((cntLiteNext s i).extractLsb' 2 4 ≥ s.ihlQ) || (s.cntQ.extractLsb' 6 10 != 0)

/-- `cnt_q[HEAD_W-1:0]`, the offset in the header. -/
def headIdx (s : State) : BitVec 6 := s.cntQ.extractLsb' 0 6

def srcAddrParams (p : Params) : IpAddrMatch.Params := ⟨p.srcAddr, 12⟩

def dstAddrParams (p : Params) : IpAddrMatch.Params := ⟨p.dstAddr, 16⟩

def addrIn (s : State) (i : In) : IpAddrMatch.In where
  validI := i.validI
  dataI := i.dataI
  idxI := headIdx s
  fsmIdleVI := s.fsmIdleQ
  fsmHeadVI := s.fsmHeadQ

def srcAddrDcdV (p : Params) (s : State) (i : In) : Bool :=
  p.matchSrcAddr && IpAddrMatch.matchFailVO (srcAddrParams p) s.srcAddrMatch (addrIn s i)

def dstAddrDcdV (p : Params) (s : State) (i : In) : Bool :=
  p.matchDstAddr && IpAddrMatch.matchFailVO (dstAddrParams p) s.dstAddrMatch (addrIn s i)

def headChecksumLiteV (s : State) : Bool := headIdx s == 10

def headChecksumEn (s : State) : Bool := s.fsmHeadQ && headChecksumLiteV s

def csRst (i : In) : Bool := i.validI && i.startI

def csEn (s : State) (i : In) : Bool :=
  s.fsmIdleQ || (i.validI && !s.fsmDataQ && !headChecksumLiteV s)

def csAdd (s : State) (i : In) : BitVec 16 := if csRst i then 0 else s.csQ

def csAddCarry (s : State) (i : In) : Bool := !csRst i && s.csCarryQ

/-- `{cs_carry_next, cs_next}`. -/
def csSum (s : State) (i : In) : BitVec 17 :=
  (csAdd s i).setWidth 17 + (swapLanes i.dataI).setWidth 17 +
    (BitVec.ofBool (csAddCarry s i)).setWidth 17

/-- The sum with its last carry. -/
def cs (s : State) : BitVec 16 := s.csQ + (BitVec.ofBool s.csCarryQ).setWidth 16

def csErrV (s : State) : Bool := s.fsmDataQ && (~~~cs s != s.headChecksumQ)

def versionDcdLiteV (s : State) (i : In) : Bool :=
  s.fsmIdleQ && (i.dataI.extractLsb' 4 4 != version)

def fragDcdLiteV (s : State) (i : In) : Bool :=
  headIdx s == 6 && (i.dataI.extractLsb' 5 3 != fragFlag)

def protDcdLiteV (p : Params) (s : State) (i : In) : Bool :=
  headIdx s == 8 && (lane1 i.dataI != p.protocol)

def dcdV (p : Params) (s : State) (i : In) : Bool :=
  versionDcdLiteV s i
    || ((i.validI && s.fsmHeadQ) && (fragDcdLiteV s i || protDcdLiteV p s i))
    || srcAddrDcdV p s i || dstAddrDcdV p s i || csErrV s

def bypassVNext (p : Params) (s : State) (i : In) : Bool :=
  if cntRst s i then false else s.bypassVQ || (i.validI && dcdV p s i)

def totLenEn (s : State) (i : In) : Bool := s.cntQ == 2 && i.validI

def totLenNext (i : In) : BitVec 16 := swapLanes i.dataI - 2

def endDataLiteV (s : State) : Bool := decide (s.cntQ ≥ s.totLenQ)

def endDataV (s : State) : Bool := endDataLiteV s && s.fsmDataQ

def fsmIdleNext (s : State) (i : In) : Bool :=
  i.cancelI || (s.fsmIdleQ && !i.startI) || (s.fsmDataQ && endDataLiteV s)

def fsmHeadNext (s : State) (i : In) : Bool :=
  (s.fsmIdleQ && i.startI) || (s.fsmHeadQ && !endHeadV s i)

def fsmDataNext (s : State) (i : In) : Bool :=
  (s.fsmHeadQ && endHeadV s i) || (s.fsmDataQ && !endDataLiteV s)

def next (p : Params) (nreset : Bool) (s : State) (i : In) : State where
  fsmIdleQ := if nreset then (if i.validI then fsmIdleNext s i else s.fsmIdleQ) else true
  fsmHeadQ := if nreset then (if i.validI then fsmHeadNext s i else s.fsmHeadQ) else false
  fsmDataQ := if nreset then (if i.validI then fsmDataNext s i else s.fsmDataQ) else false
  cntQ := if cntEn s i then cntNext s i else s.cntQ
  ihlQ := if s.fsmIdleQ then ihlNext i else s.ihlQ
  headChecksumQ := if headChecksumEn s then swapLanes i.dataI else s.headChecksumQ
  csQ := if csEn s i then (csSum s i).extractLsb' 0 16 else s.csQ
  csCarryQ := if csEn s i then (csSum s i).getLsbD 16 else s.csCarryQ
  srcAddrMatch := IpAddrMatch.next (srcAddrParams p) s.srcAddrMatch (addrIn s i)
  dstAddrMatch := IpAddrMatch.next (dstAddrParams p) s.dstAddrMatch (addrIn s i)
  bypassVQ := bypassVNext p s i
  totLenQ := if totLenEn s i then totLenNext i else s.totLenQ
  fsmHead2q := if i.validI then s.fsmHeadQ else s.fsmHead2q

def validO (s : State) (i : In) : Bool := i.validI && s.fsmDataQ && !s.bypassVQ

def startO (s : State) : Bool := s.fsmHead2q && s.fsmDataQ

def termLenO (s : State) : BitVec 2 :=
  BitVec.ofBool (!s.totLenQ.getLsbD 0) ++ BitVec.ofBool (s.totLenQ.getLsbD 0)

def out (s : State) (i : In) : Out where
  csErrO := csErrV s
  validO := validO s i
  startO := startO s
  termO := endDataV s
  termLenO := termLenO s
  cancelO := i.cancelI
  dataO := i.dataI
  lenO := 2

def machine (p : Params) : Sync.Mealy State In Out := ⟨next p true, out⟩

end Ipv4Rx

end LowLatencyEthernet
