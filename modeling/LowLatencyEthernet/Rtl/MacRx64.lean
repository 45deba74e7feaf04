import LowLatencyEthernet.Rtl.MacRx

namespace LowLatencyEthernet.MacRx64
set_option autoImplicit true

open MacRx (ipv4 tpic)

/-! The MAC receiver `mac_rx`, `DATA_W = 64`, `IS_10G = 1` and `VLAN_TAG = 1`, without its CRC.
Here `head_data_len` has no driver, so `len_o` and `data_o` are left out as well. -/

structure State where
  fsmInvalidQ : Bool
  fsmHeadQ : Bool
  fsmDataQ : Bool
  cntQ : BitVec 5
  typeLsbVQ : Bool
  bypassVQ : Bool
deriving DecidableEq, Repr, Inhabited

/-- `start_i` has one bit for each of the two lanes a frame may start on. -/
structure In where
  cancelI : Bool
  validI : Bool
  dataI : BitVec 64
  startI : BitVec 2
  termI : Bool
  lenI : BitVec 4
deriving DecidableEq, Repr, Inhabited

structure Out where
  validO : Bool
  startO : Bool
deriving DecidableEq, Repr

def startLite (i : In) : Bool := i.startI != 0

/-- The first beat has 4 bytes on the second lane. -/
def dataCnt (i : In) : BitVec 5 :=
  if startLite i then (if i.startI.getLsbD 1 then 4 else 8) else 8

def cntRst (s : State) : Bool := s.fsmInvalidQ

def cntAdd (s : State) : BitVec 5 := if cntRst s then 0 else s.cntQ

def cntNext (s : State) (i : In) : BitVec 5 := cntAdd s + if i.validI then dataCnt i else 0

def cntEn (s : State) (i : In) : Bool := s.fsmInvalidQ || i.validI

def liteTypeId (i : In) (k : Nat) : Word := i.dataI.extractLsb' (32 * k) 16

/-- The counter stands at 16 or 20. -/
def vlanIdxV (s : State) : Bool :=
  s.cntQ.getLsbD 4 && !s.cntQ.getLsbD 3 && (!s.cntQ.getLsbD 1 && !s.cntQ.getLsbD 0)

def vlanId (s : State) (i : In) : Word :=
  if s.cntQ.getLsbD 2 then liteTypeId i 0 else liteTypeId i 1

def tpicV (s : State) (i : In) : Bool := vlanId s i == tpic

def vlanV (s : State) (i : In) : Bool := vlanIdxV s && tpicV s i

def typeLsbVNext (s : State) (i : In) : Bool := vlanV s i && !s.cntQ.getLsbD 2

def typeV (s : State) (i : In) : Bool :=
  vlanIdxV s && (s.cntQ.getLsbD 2 || (!s.cntQ.getLsbD 2 && (!vlanV s i || s.typeLsbVQ)))

/-- `{TYPE_W{b}} & w` -/
def mask (b : Bool) (w : Word) : Word := if b then w else 0

def typeId (s : State) (i : In) : Word :=
  mask (s.cntQ.getLsbD 2 && !vlanV s i) (liteTypeId i 0) |||
    mask (s.cntQ.getLsbD 2 && vlanV s i) (liteTypeId i 1) |||
    mask (!s.cntQ.getLsbD 2 && !s.typeLsbVQ) (liteTypeId i 1) |||
    mask (!s.cntQ.getLsbD 2 && s.typeLsbVQ) (liteTypeId i 0)

def typeErrV (s : State) (i : In) : Bool :=
  s.fsmHeadQ && i.validI && typeV s i && (typeId s i != ipv4)

def bypassVNext (s : State) (i : In) : Bool :=
  if s.fsmInvalidQ then false else s.bypassVQ || typeErrV s i

def dataLiteV (s : State) (i : In) : Bool := i.validI && !s.bypassVQ

def headDataLiteV (s : State) (i : In) : Bool := typeV s i

def validO (s : State) (i : In) : Bool :=
  dataLiteV s i && (s.fsmDataQ || (s.fsmHeadQ && headDataLiteV s i))

def startO (s : State) (i : In) : Bool := headDataLiteV s i

def fsmInvalidNext (s : State) (i : In) : Bool :=
  i.cancelI || (i.termI && s.fsmDataQ) || (s.fsmInvalidQ && !startLite i)

def fsmHeadNext (s : State) (i : In) : Bool :=
  (startLite i || (s.fsmHeadQ && !typeV s i)) && !i.cancelI

def fsmDataNext (s : State) (i : In) : Bool :=
  ((s.fsmHeadQ && typeV s i) || (s.fsmDataQ && !i.termI)) && !i.cancelI

-- `type_lsb_v_q` is the one register of the header that a stall does not hold.
def next (nreset : Bool) (s : State) (i : In) : State where
  fsmInvalidQ :=
    if nreset then (if i.validI then fsmInvalidNext s i else s.fsmInvalidQ) else true
  fsmHeadQ := if nreset then (if i.validI then fsmHeadNext s i else s.fsmHeadQ) else false
  fsmDataQ := if nreset then (if i.validI then fsmDataNext s i else s.fsmDataQ) else false
  cntQ := if cntEn s i then cntNext s i else s.cntQ
  typeLsbVQ := typeLsbVNext s i
  bypassVQ := bypassVNext s i

def out (s : State) (i : In) : Out where
  validO := validO s i
  startO := startO s i

def machine : Sync.Mealy State In Out := ⟨next true, out⟩

def reset (s : State) (i : In) : State := next false s i

end LowLatencyEthernet.MacRx64
