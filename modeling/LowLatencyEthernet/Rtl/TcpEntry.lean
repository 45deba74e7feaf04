import LowLatencyEthernet.Sync.Mealy

namespace LowLatencyEthernet.TcpEntry
set_option autoImplicit true

/-! One socket, `tcp_entry`. -/

structure State where
  invalidQ : Bool
  synEmitQ : Bool
  synSentQ : Bool
  estEmitQ : Bool
  estQ : Bool
  finWait1EmitQ : Bool
  finWait1Q : Bool
  finWait2Q : Bool
  timeWaitEmitQ : Bool
  timeWaitQ : Bool
  seqQ : BitVec 32
  ackQ : BitVec 32
deriving DecidableEq, Repr, Inhabited

structure In where
  initVI : Bool
  initSeqI : BitVec 32
  closeVI : Bool
  cancelVI : Bool
  recVI : Bool
  recSizeI : BitVec 16
  recSeqI : BitVec 32
  recAckI : BitVec 32
  recFlagI : BitVec 8
  sentVI : Bool
  sendSizeI : BitVec 16
deriving DecidableEq, Repr, Inhabited

-- `valid_o`, `req_seq_o` and `req_ack_o` have no driver.
structure Out where
  reqVO : Bool
  reqFlagO : BitVec 8
deriving DecidableEq, Repr

def ackIdx : Nat := 3

def synIdx : Nat := 6

def finIdx : Nat := 7

def seqAdd (s : State) (i : In) : BitVec 32 := s.seqQ + i.sendSizeI.setWidth 32

def seqNext (s : State) (i : In) : BitVec 32 := if i.initVI then i.initSeqI else seqAdd s i

def seqEn (i : In) : Bool := i.initVI || i.sentVI

def ackAdd (s : State) (i : In) : BitVec 32 := s.ackQ + i.recSizeI.setWidth 32

def ackNext (s : State) (i : In) : BitVec 32 := if !s.invalidQ then ackAdd s i else 0

def ackEn (i : In) : Bool := i.initVI || i.recVI

/-- The timeout has no counter. -/
def timeoutWait : Bool := true

def cancelV (i : In) : Bool := i.cancelVI

def synEmitNext (s : State) (i : In) : Bool := i.initVI && s.invalidQ && !cancelV i

def synSentNext (s : State) (i : In) : Bool := i.sentVI && s.synEmitQ

def estEmitNext (s : State) (i : In) : Bool :=
  s.synSentQ && (i.recVI && i.recFlagI.getLsbD synIdx && i.recFlagI.getLsbD ackIdx)

def estNext (s : State) (i : In) : Bool := i.sentVI && s.estEmitQ

def finWait1EmitNext (s : State) (i : In) : Bool := s.estQ && i.closeVI

def finWait1Next (s : State) (i : In) : Bool := s.finWait1EmitQ && i.sentVI

def finWait2Next (s : State) (i : In) : Bool :=
  s.finWait1Q && (i.recVI && i.recFlagI.getLsbD ackIdx)

def timeWaitEmitNext (s : State) (i : In) : Bool :=
  s.finWait2Q && (i.recVI && i.recFlagI.getLsbD finIdx)

def timeWaitNext (s : State) (i : In) : Bool := s.timeWaitEmitQ && i.sentVI

def invalidNext (s : State) (i : In) : Bool :=
  (s.invalidQ && !i.initVI) || (s.timeWaitQ && timeoutWait)

-- The registers of the closing states are in no clocked block, so nothing ever writes them; the
-- reset clears the other five, that of the invalid state among them.
def next (nreset : Bool) (s : State) (i : In) : State where
  invalidQ := if nreset then invalidNext s i else false
  synEmitQ := if nreset then synEmitNext s i else false
  synSentQ := if nreset then synSentNext s i else false
  estEmitQ := if nreset then estEmitNext s i else false
  estQ := if nreset then estNext s i else false
  finWait1EmitQ := s.finWait1EmitQ
  finWait1Q := s.finWait1Q
  finWait2Q := s.finWait2Q
  timeWaitEmitQ := s.timeWaitEmitQ
  timeWaitQ := s.timeWaitQ
  seqQ := if seqEn i then seqNext s i else s.seqQ
  ackQ := if ackEn i then ackNext s i else s.ackQ

def reqAck : Bool := false

def reqAckFlag (s : State) (i : In) : Bool := reqAck || estEmitNext s i || timeWaitEmitNext s i

def reqFinFlag (s : State) (i : In) : Bool := finWait1EmitNext s i

def reqSynFlag (s : State) (i : In) : Bool := synEmitNext s i

def reqFsm (s : State) (i : In) : Bool :=
  synEmitNext s i || estEmitNext s i || finWait1EmitNext s i || timeWaitEmitNext s i

/-- Seven bits are put together for the eight flags. -/
def reqFlag (s : State) (i : In) : BitVec 7 :=
  0#3 ++ BitVec.ofBool (reqAckFlag s i) ++ 0#1 ++ BitVec.ofBool (reqSynFlag s i) ++
    BitVec.ofBool (reqFinFlag s i)

def out (s : State) (i : In) : Out where
  reqVO := reqFsm s i || reqAck
  reqFlagO := (reqFlag s i).setWidth 8

def machine : Sync.Mealy State In Out := ⟨next true, out⟩

def reset (s : State) (i : In) : State := next false s i

end LowLatencyEthernet.TcpEntry
