import LowLatencyEthernet.Rtl.Crc
import LowLatencyEthernet.Rtl.Heads

namespace LowLatencyEthernet.EthTx
set_option autoImplicit true

/-! The transmit path `eth_tx`, `DATA_W = 16`, `UDP = 1`. -/

structure Params where
  vlanTag : Bool
  udpCs : Bool
  dstPort : BitVec 16
  srcPort : BitVec 16
  ipSrcAddr : BitVec 32
  ipDstAddr : BitVec 32
  macSrcAddr : BitVec 48
  macDstAddr : BitVec 48
deriving DecidableEq, Repr

def udpParams (p : Params) : UdpHeadTx.Params := ⟨p.dstPort, p.srcPort, p.udpCs⟩

def ipParams (p : Params) : Ipv4HeadTx.Params :=
  { srcAddr := p.ipSrcAddr, dstAddr := p.ipDstAddr }

def macParams (p : Params) : MacHeadTx.Params := ⟨p.vlanTag, p.macSrcAddr, p.macDstAddr⟩

/-- Bytes of all headers. -/
def headN (p : Params) : Nat := 8 + 20 + MacHeadTx.headN (macParams p)

structure State (p : Params) where
  fsmIdleQ : Bool
  fsmHeadQ : Bool
  fsmDataQ : Bool
  fsmFootQ : Bool
  headQ : BitVec (8 * headN p)
  headCntQ : BitVec 6
  crcTx : Crc.State
  footCntQ : BitVec 4
  lastBlockVQ : Bool
  /-- `crc_raw_shifted` and `data_last_crc_shifted` are latches: a length that selects no shift
  keeps them. -/
  crcRawShifted : BitVec 32
  dataLastCrcShifted : BitVec 16
  crcQ : BitVec 32
deriving DecidableEq, Repr, Inhabited

/-- The bits that are `'x` in the source, whatever they are in a cycle. -/
structure X where
  headNext : BitVec 16
  crcRawShifted : BitVec 8
  dataLastCrcShifted : BitVec 8
  /-- Element 2 of `data_last_crc_shifted_arr`, which is out of its bounds. -/
  dataLastCrcShifted2 : BitVec 16
  crcNext : BitVec 16
deriving DecidableEq, Repr, Inhabited

structure In where
  appCancelI : Bool
  appEarlyVI : Bool
  appPktLenI : BitVec 16
  appDataI : Word
  appLenI : BitVec 2
  appLastI : Bool
  appLastBlockNextI : Bool
  appLastBlockNextLenI : BitVec 4
  appCsI : BitVec 16
  phyReadyI : Bool
  x : X
deriving DecidableEq, Repr, Inhabited

structure Out where
  appReadyVO : Bool
  phyCtrlVO : Bool
  phyDataO : Word
  phyStartO : Bool
  phyIdleO : Bool
  phyTermO : Bool
  phyTermLenO : BitVec 4
deriving DecidableEq, Repr

variable {p : Params}

/-- `{n{b}} & w`. -/
def gated (b : Bool) (w : BitVec n) : BitVec n := if b then w else 0

def tHead (p : Params) (i : In) : BitVec 64 := UdpHeadTx.headO (udpParams p) i.appPktLenI i.appCsI

def ipDataLen (i : In) : BitVec 16 := i.appPktLenI + 8

def ipHead (p : Params) (i : In) : BitVec 160 := Ipv4HeadTx.headO (ipParams p) (ipDataLen i)

def macHead (p : Params) : BitVec (8 * MacHeadTx.headN (macParams p)) :=
  MacHeadTx.headO (macParams p)

def headInit (p : Params) (i : In) : BitVec (8 * headN p) :=
  (macHead p ++ ipHead p i ++ tHead p i).setWidth _

def headRst (s : State p) (i : In) : Bool := s.fsmIdleQ && i.appEarlyVI

def headNext (s : State p) (i : In) : BitVec (8 * headN p) :=
  if headRst s i then headInit p i
  else (i.x.headNext ++ s.headQ.extractLsb' 16 (8 * headN p - 16)).setWidth _

def headCntAdd (s : State p) : BitVec 6 := s.headCntQ + 2

def headCntEn (s : State p) : Bool := s.fsmHeadQ || s.fsmIdleQ

def headCntRst (s : State p) (i : In) : Bool := (s.fsmIdleQ && !i.appEarlyVI) || !i.phyReadyI

def headCntNext (s : State p) (i : In) : BitVec 6 := if headCntRst s i then 0 else headCntAdd s

def headCntZero (s : State p) : Bool := s.headCntQ == 0

def endHeadV (s : State p) : Bool := decide (headN p ≤ s.headCntQ.toNat)

def macPreN : BitVec 6 := 8

def crcStartV (s : State p) : Bool := s.headCntQ == macPreN

def crcDataV (s : State p) : Bool := (s.fsmHeadQ && decide (s.headCntQ ≥ macPreN)) || s.fsmDataQ

def headData (s : State p) : Word := s.headQ.extractLsb' 0 16

def crcData (s : State p) (i : In) : Word :=
  gated s.fsmHeadQ (headData s) ||| gated s.fsmDataQ i.appDataI

def crcDataLen (i : In) : BitVec 2 := if i.appLastI then i.appLenI else 2

def crcIn (s : State p) (i : In) : Crc.In where
  validI := crcDataV s
  lenI := crcDataLen i
  startI := crcStartV s
  dataI := crcData s i

def crcRaw (s : State p) : BitVec 32 := Crc.crcO s.crcTx

def crcRawShifted (s : State p) (i : In) : BitVec 32 :=
  if i.appLenI = 1 then i.x.crcRawShifted ++ (crcRaw s).extractLsb' 8 24
  else if i.appLenI = 2 then crcRaw s
  else s.crcRawShifted

def dataLastCrcShifted (s : State p) (i : In) : BitVec 16 :=
  if i.appLenI = 1 then (crcRaw s).extractLsb' 0 8 ++ i.x.dataLastCrcShifted
  else if i.appLenI = 2 then i.x.dataLastCrcShifted2
  else s.dataLastCrcShifted

/-- The last data beat, `keep` being the mask of `app_len_i`; the first bytes of the check sequence
fill it up. -/
def dataLast (keep : BitVec 2) (s : State p) (i : In) : Word :=
  lanes (if keep.getLsbD 0 then lane0 i.appDataI else lane0 (dataLastCrcShifted s i))
    (if keep.getLsbD 1 then lane1 i.appDataI else lane1 (dataLastCrcShifted s i))

def crcRst (s : State p) (i : In) : Bool := s.fsmDataQ && i.appLastI

def crcNext (s : State p) (i : In) : BitVec 32 :=
  if crcRst s i then crcRawShifted s i else i.x.crcNext ++ s.crcQ.extractLsb' 16 16

def dataFoot (s : State p) : Word := s.crcQ.extractLsb' 0 16

def footCntRst (s : State p) (i : In) : Bool := s.fsmDataQ && i.appLastBlockNextI

def footCntInit (i : In) : BitVec 4 := i.appLastBlockNextLenI + 4

def footCntDec (s : State p) : BitVec 4 := s.footCntQ - 2

def footCntNext (s : State p) (i : In) : BitVec 4 :=
  if footCntRst s i then footCntInit i else footCntDec s

def endFootV (s : State p) : Bool := !decide (s.footCntQ > 2)

def lastBlockVNext (s : State p) (i : In) : Bool :=
  (s.fsmDataQ && i.appLastBlockNextI) || (s.lastBlockVQ && !s.fsmIdleQ)

def dataV (s : State p) : Bool := s.fsmHeadQ || s.fsmDataQ || s.fsmFootQ

def dataTerm (s : State p) (i : In) : Bool :=
  (s.fsmDataQ && i.appLastBlockNextI) || s.lastBlockVQ ||
    (s.fsmFootQ && decide (s.footCntQ < 8))

def dataCtrl (s : State p) (i : In) : Bool := headCntZero s || dataTerm s i

def dataStart (s : State p) : Bool := headCntZero s && s.fsmHeadQ

def dataTermLen (s : State p) (i : In) : BitVec 4 :=
  gated (!dataTerm s i) (BitVec.allOnes 4) ||| s.footCntQ

/-- `maskO` is the output of `len_to_mask`. -/
def data (maskO : BitVec 2 → BitVec 2) (s : State p) (i : In) : Word :=
  gated s.fsmHeadQ (headData s) ||| gated (s.fsmDataQ && !i.appLastI) i.appDataI |||
    gated (s.fsmDataQ && i.appLastI) (dataLast (maskO i.appLenI) s i) |||
    gated s.fsmFootQ (dataFoot s)

def fsmIdleNext (s : State p) (i : In) : Bool :=
  i.appCancelI || (s.fsmIdleQ && !i.appEarlyVI) || (s.fsmFootQ && endFootV s)

def fsmHeadNext (s : State p) (i : In) : Bool :=
  !i.appCancelI && ((s.fsmIdleQ && i.appEarlyVI) || (s.fsmHeadQ && !endHeadV s))

def fsmDataNext (s : State p) (i : In) : Bool :=
  !i.appCancelI && ((s.fsmHeadQ && endHeadV s) || (s.fsmDataQ && !i.appLastI))

def fsmFootNext (s : State p) (i : In) : Bool :=
  !i.appCancelI && ((s.fsmDataQ && i.appLastI) || (s.fsmFootQ && !endFootV s))

/-- The registers after one clock edge; `nreset` only reaches the FSM and `last_block_v_q`. -/
@[simp] def clock (nreset : Bool) (s : State p) (i : In) : State p where
  fsmIdleQ := if nreset then fsmIdleNext s i else true
  fsmHeadQ := if nreset then fsmHeadNext s i else false
  fsmDataQ := if nreset then fsmDataNext s i else false
  fsmFootQ := if nreset then fsmFootNext s i else false
  headQ := headNext s i
  headCntQ := if headCntEn s then headCntNext s i else s.headCntQ
  crcTx := Crc.next s.crcTx (crcIn s i)
  footCntQ := footCntNext s i
  lastBlockVQ := if nreset then lastBlockVNext s i else false
  crcRawShifted := s.crcRawShifted
  dataLastCrcShifted := s.dataLastCrcShifted
  crcQ := crcNext s i

/-- The latches under the inputs `i`. -/
@[simp] def settle (s : State p) (i : In) : State p :=
  { s with
    crcTx := Crc.settle s.crcTx (crcIn s i)
    crcRawShifted := crcRawShifted s i
    dataLastCrcShifted := dataLastCrcShifted s i }

-- The latches see the new registers before the inputs change.
def next (nreset : Bool) (s : State p) (i : In) : State p := settle (clock nreset s i) i

def out (maskO : BitVec 2 → BitVec 2) (s : State p) (i : In) : Out where
  appReadyVO := s.fsmDataQ
  phyCtrlVO := dataCtrl s i
  phyDataO := data maskO s i
  phyStartO := dataStart s
  phyIdleO := !dataV s
  phyTermO := dataTerm s i
  phyTermLenO := dataTermLen s i

def machine (p : Params) (maskO : BitVec 2 → BitVec 2) : Sync.Mealy (State p) In Out :=
  ⟨next true, out maskO⟩

def reset (s : State p) (i : In) : State p := next false s i

end LowLatencyEthernet.EthTx
