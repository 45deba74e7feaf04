import LowLatencyEthernet.Rtl.Crc

namespace LowLatencyEthernet.MacRx
set_option autoImplicit true

/-! The MAC receiver `mac_rx`, `DATA_W = 16`. -/

structure Params where
  vlanTag : Bool
deriving DecidableEq, Repr

structure State where
  fsmInvalidQ : Bool
  fsmHeadQ : Bool
  fsmDataQ : Bool
  cntQ : BitVec 5
  typeLsbVQ : BitVec 2
  bypassVQ : Bool
  fsmHead2q : Bool
  crc : Crc.State
deriving DecidableEq, Repr, Inhabited

structure In where
  cancelI : Bool
  validI : Bool
  dataI : Word
  startI : Bool
  termI : Bool
  lenI : BitVec 2
deriving DecidableEq, Repr, Inhabited

structure Out where
  validO : Bool
  startO : Bool
  dataO : Word
  lenO : BitVec 2
  crcErrO : Bool
deriving DecidableEq, Repr

/-- Offset of the type field: 8 bytes of preamble and two addresses of 6 bytes. -/
def typeIdx : BitVec 5 := 20

/-- The type IPv4, `08 00` on the wire. -/
def ipv4 : Word := 0x0008

/-- The VLAN tag protocol identifier, `81 00` on the wire. -/
def tpic : Word := 0x0081

def cntRst (s : State) : Bool := s.fsmInvalidQ

def cntAdd (s : State) : BitVec 5 := if cntRst s then 0 else s.cntQ

def cntNext (s : State) (i : In) : BitVec 5 := cntAdd s + if i.validI then 2 else 0

def cntEn (s : State) (i : In) : Bool := s.fsmInvalidQ || i.validI

def typeId (i : In) : Word := i.dataI

def vlanId (i : In) : Word := i.dataI

def tpicV (i : In) : Bool := vlanId i == tpic

def vlanIdxV (s : State) : Bool := s.cntQ == typeIdx

def vlanV (s : State) (i : In) : Bool := vlanIdxV s && tpicV i

def typeLsbVNext (s : State) (i : In) : BitVec 2 :=
  BitVec.ofBool (s.fsmHeadQ && vlanV s i) ++ BitVec.ofBool (s.fsmHeadQ && s.typeLsbVQ.getLsbD 1)

def typeV (p : Params) (s : State) (i : In) : Bool :=
  if p.vlanTag then (vlanIdxV s && !vlanV s i) || s.typeLsbVQ.getLsbD 0 else s.cntQ == typeIdx

def typeErrV (p : Params) (s : State) (i : In) : Bool :=
  s.fsmHeadQ && i.validI && typeV p s i && (typeId i != ipv4)

def bypassVNext (p : Params) (s : State) (i : In) : Bool :=
  if s.fsmInvalidQ then false else s.bypassVQ || typeErrV p s i

def dataLiteV (s : State) (i : In) : Bool := i.validI && !s.bypassVQ

def validO (s : State) (i : In) : Bool := dataLiteV s i && s.fsmDataQ

def startO (s : State) : Bool := s.fsmHead2q && s.fsmDataQ

def lenO (i : In) : BitVec 2 := if i.termI then i.lenI else 2

def crcStartV (s : State) : Bool := s.fsmHeadQ && s.cntQ == 8

def crcZero (s : State) : Bool := Crc.crcO s.crc == 0

def crcErrV (s : State) (i : In) : Bool := !crcZero s && i.termI && i.validI

def crcIn (s : State) (i : In) : Crc.In where
  validI := i.validI
  lenI := i.lenI
  startI := crcStartV s
  dataI := swapLanes i.dataI

def fsmInvalidNext (s : State) (i : In) : Bool :=
  i.cancelI || (i.termI && s.fsmDataQ) || (s.fsmInvalidQ && !i.startI)

def fsmHeadNext (p : Params) (s : State) (i : In) : Bool :=
  (i.startI || (s.fsmHeadQ && !typeV p s i)) && !i.cancelI

def fsmDataNext (p : Params) (s : State) (i : In) : Bool :=
  ((s.fsmHeadQ && typeV p s i) || (s.fsmDataQ && !i.termI)) && !i.cancelI

/-- The registers after one clock edge; `nreset` only reaches the state of the FSM. -/
@[simp] def clock (p : Params) (nreset : Bool) (s : State) (i : In) : State where
  fsmInvalidQ :=
    if nreset then (if i.validI then fsmInvalidNext s i else s.fsmInvalidQ) else true
  fsmHeadQ := if nreset then (if i.validI then fsmHeadNext p s i else s.fsmHeadQ) else false
  fsmDataQ := if nreset then (if i.validI then fsmDataNext p s i else s.fsmDataQ) else false
  cntQ := if cntEn s i then cntNext s i else s.cntQ
  typeLsbVQ := if i.validI then typeLsbVNext s i else s.typeLsbVQ
  bypassVQ := bypassVNext p s i
  fsmHead2q := if i.validI then s.fsmHeadQ else s.fsmHead2q
  crc := Crc.next s.crc (crcIn s i)

/-- The latch of `crc` under the inputs `i`. -/
@[simp] def settle (s : State) (i : In) : State := { s with crc := Crc.settle s.crc (crcIn s i) }

def next (p : Params) (nreset : Bool) (s : State) (i : In) : State :=
  settle (clock p nreset s i) i

def out (s : State) (i : In) : Out where
  validO := validO s i
  startO := startO s
  dataO := i.dataI
  lenO := lenO i
  crcErrO := crcErrV s i

def machine (p : Params) : Sync.Mealy State In Out := ⟨next p true, out⟩

/-- The registers one clock edge under reset leaves, whatever they held before. -/
def reset (p : Params) (s : State) (i : In) : State := next p false s i

end LowLatencyEthernet.MacRx
