import LowLatencyEthernet.Rtl.MacRx

namespace LowLatencyEthernet.MacRx32
set_option autoImplicit true

open MacRx (typeIdx ipv4 tpic)

/-! The MAC receiver `mac_rx`, `DATA_W = 32` and `VLAN_TAG = 1`, without its CRC. -/

structure State where
  fsmInvalidQ : Bool
  fsmHeadQ : Bool
  fsmDataQ : Bool
  cntQ : BitVec 5
  typeLsbVQ : Bool
  bypassVQ : Bool
deriving DecidableEq, Repr, Inhabited

-- `unknown` stands for the bits `1'bx` and for `data_i[32]`, which is out of range: any values.
structure In where
  cancelI : Bool
  validI : Bool
  dataI : BitVec 32
  startI : Bool
  termI : Bool
  lenI : BitVec 3
  unknown : BitVec 17
deriving DecidableEq, Repr, Inhabited

structure Out where
  validO : Bool
  startO : Bool
  dataO : BitVec 32
  lenO : BitVec 3
deriving DecidableEq, Repr

def cntRst (s : State) : Bool := s.fsmInvalidQ

def cntAdd (s : State) : BitVec 5 := if cntRst s then 0 else s.cntQ

def cntNext (s : State) (i : In) : BitVec 5 := cntAdd s + if i.validI then 4 else 0

def cntEn (s : State) (i : In) : Bool := s.fsmInvalidQ || i.validI

def typeId (i : In) : Word := i.dataI.extractLsb' 0 16

def vlanId (i : In) : Word := i.dataI.extractLsb' 0 16

def tpicV (i : In) : Bool := vlanId i == tpic

def vlanIdxV (s : State) : Bool := s.cntQ == typeIdx

def vlanV (s : State) (i : In) : Bool := vlanIdxV s && tpicV i

/-- A tag is 4 bytes long, the type follows it with the next beat. -/
def typeLsbVNext (s : State) (i : In) : Bool := s.fsmHeadQ && vlanV s i

def typeV (s : State) (i : In) : Bool := (vlanIdxV s && !vlanV s i) || s.typeLsbVQ

def typeErrV (s : State) (i : In) : Bool :=
  s.fsmHeadQ && i.validI && typeV s i && (typeId i != ipv4)

def bypassVNext (s : State) (i : In) : Bool :=
  if s.fsmInvalidQ then false else s.bypassVQ || typeErrV s i

def dataLiteV (s : State) (i : In) : Bool := i.validI && !s.bypassVQ

def headDataLen : BitVec 3 := 2

def headDataLiteV (s : State) (i : In) : Bool := typeV s i

/-- `{LEN_W{~head_data_len & ~term_i}}`, which repeats three bits, not one. -/
def lenMask (i : In) : BitVec 9 :=
  let m : BitVec 3 := ~~~headDataLen &&& ~~~(BitVec.ofBool i.termI).setWidth 3
  m ++ m ++ m

def lenO (s : State) (i : In) : BitVec 3 :=
  (if headDataLiteV s i then headDataLen else 0) ||| (if i.termI then i.lenI else 0) |||
    ((lenMask i).setWidth 32 &&& 4).setWidth 3

/-- `{{TYPE_W{1'bx}}, data_i[DATA_W-:TYPE_W]}`, which takes the bits from 32 down to 17. -/
def headDataShifted (i : In) : BitVec 32 := i.unknown ++ i.dataI.extractLsb' 17 15

def dataO (s : State) (i : In) : BitVec 32 :=
  if headDataLiteV s i then headDataShifted i else i.dataI

def validO (s : State) (i : In) : Bool :=
  dataLiteV s i && (s.fsmDataQ || (s.fsmHeadQ && headDataLiteV s i))

def startO (s : State) (i : In) : Bool := headDataLiteV s i

def fsmInvalidNext (s : State) (i : In) : Bool :=
  i.cancelI || (i.termI && s.fsmDataQ) || (s.fsmInvalidQ && !i.startI)

def fsmHeadNext (s : State) (i : In) : Bool :=
  (i.startI || (s.fsmHeadQ && !typeV s i)) && !i.cancelI

def fsmDataNext (s : State) (i : In) : Bool :=
  ((s.fsmHeadQ && typeV s i) || (s.fsmDataQ && !i.termI)) && !i.cancelI

def next (nreset : Bool) (s : State) (i : In) : State where
  fsmInvalidQ :=
    if nreset then (if i.validI then fsmInvalidNext s i else s.fsmInvalidQ) else true
  fsmHeadQ := if nreset then (if i.validI then fsmHeadNext s i else s.fsmHeadQ) else false
  fsmDataQ := if nreset then (if i.validI then fsmDataNext s i else s.fsmDataQ) else false
  cntQ := if cntEn s i then cntNext s i else s.cntQ
  typeLsbVQ := if i.validI then typeLsbVNext s i else s.typeLsbVQ
  bypassVQ := bypassVNext s i

def out (s : State) (i : In) : Out where
  validO := validO s i
  startO := startO s i
  dataO := dataO s i
  lenO := lenO s i

def machine : Sync.Mealy State In Out := ⟨next true, out⟩

def reset (s : State) (i : In) : State := next false s i

end LowLatencyEthernet.MacRx32
