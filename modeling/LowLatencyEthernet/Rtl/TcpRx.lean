import LowLatencyEthernet.Sync.Mealy
import LowLatencyEthernet.Rtl.Lanes

namespace LowLatencyEthernet.TcpRx
set_option autoImplicit true

/-! The TCP receiver `tcp_rx`, `DATA_W = 16`, with `HEAD_CNT_W` from `MAX_HEAD_N = 57`, a `len_i`
that holds a 2 and `data_end_v` for `end_v`. -/

structure State where
  fsmIdleQ : Bool
  fsmHeadQ : Bool
  fsmDataQ : Bool
  headCntQ : BitVec 6
  srcPortQ : BitVec 16
  dstPortQ : BitVec 16
  seqQ : BitVec 32
  ackQ : BitVec 32
  doffQ : BitVec 4
deriving DecidableEq, Repr, Inhabited

-- `data_end_v` has no driver, so it comes with the inputs.
structure In where
  validI : Bool
  startI : Bool
  dataI : Word
  lenI : BitVec 2
  dataEndV : Bool
deriving DecidableEq, Repr, Inhabited

def headCntAdd (s : State) (i : In) : BitVec 6 := s.headCntQ + i.lenI.setWidth 6

def headCntNext (s : State) (i : In) : BitVec 6 :=
  if i.startI then i.lenI.setWidth 6 else headCntAdd s i

def startV (i : In) : Bool := i.validI && i.startI

def srcPortEn (i : In) : Bool := startV i

def dstPortEn (s : State) : Bool := s.headCntQ == 2

/-- The enable of half `k`, where `8 / DATA_W` adds nothing to the offset. -/
def seqEn (s : State) (k : Nat) : Bool := 4 + k * 8 / 16 == s.headCntQ.toNat

def ackEn (s : State) (k : Nat) : Bool := 8 + k * 8 / 16 == s.headCntQ.toNat

/-- `q[k*DATA_W+:DATA_W]` of a number. -/
def half (q : BitVec 32) (k : Nat) : Word := q.extractLsb' (k * 16) 16

def seqNext (s : State) (i : In) (k : Nat) : Word := if seqEn s k then i.dataI else half s.seqQ k

def ackNext (s : State) (i : In) (k : Nat) : Word := if ackEn s k then i.dataI else half s.ackQ k

def doffV (s : State) : Bool := s.fsmHeadQ && decide (s.headCntQ.toNat > 12)

def doffNext (s : State) (i : In) : BitVec 4 :=
  if !doffV s then i.dataI.extractLsb' 0 4 else s.doffQ

def headEndV (s : State) (i : In) : Bool :=
  i.validI && doffV s && decide (s.doffQ.toNat ≤ (headCntNext s i).toNat)

def fsmIdleNext (s : State) (i : In) : Bool :=
  (s.fsmIdleQ && !startV i) || (s.fsmDataQ && i.dataEndV)

def fsmHeadNext (s : State) (i : In) : Bool :=
  (s.fsmIdleQ && startV i) || (s.fsmHeadQ && !headEndV s i)

def fsmDataNext (s : State) (i : In) : Bool :=
  (s.fsmHeadQ && headEndV s i) || (s.fsmDataQ && !i.dataEndV)

-- The reset clears the idle state with the others.
def next (nreset : Bool) (s : State) (i : In) : State where
  fsmIdleQ := if nreset then fsmIdleNext s i else false
  fsmHeadQ := if nreset then fsmHeadNext s i else false
  fsmDataQ := if nreset then fsmDataNext s i else false
  headCntQ := if i.validI then headCntNext s i else s.headCntQ
  srcPortQ := if srcPortEn i then i.dataI else s.srcPortQ
  dstPortQ := if dstPortEn s then i.dataI else s.dstPortQ
  seqQ := seqNext s i 1 ++ seqNext s i 0
  ackQ := ackNext s i 1 ++ ackNext s i 0
  doffQ := doffNext s i

-- No output has a driver.
def machine : Sync.Mealy State In Unit := ⟨next true, fun _ _ => ()⟩

def reset (s : State) (i : In) : State := next false s i

end LowLatencyEthernet.TcpRx
