import LowLatencyEthernet.Tb.MacIntf

namespace LowLatencyEthernet.Tb
set_option autoImplicit true

/-! The test vector generator `tv`. A loop takes its bound as fuel, and `none` stands for a failed
`assert` or for fuel that does not suffice. -/

/-- The loop of `get_nxt_pkt_seg` with its `n` last passes to go, `i` bytes in `seg`. -/
def segLoop (pkt : List Byte) (pos : Nat) : Nat → Nat → Word → Word × Nat
  | 0, i, seg => (seg, i)
  | n + 1, i, seg =>
    if pos + i < pkt.length then
      segLoop pkt pos n (i + 1) (seg ||| (pkt.getD (pos + i) 0).setWidth 16 <<< (i * 8))
    else (seg, i)

/-- The next segment, `seg_len` and `pos` after it. -/
def getNxtPktSeg (pkt : List Byte) (pos : Nat) : Option (Word × BitVec 8 × Nat) :=
  if pkt.length ≠ 0 ∧ pos < pkt.length then
    let (seg, i) := segLoop pkt pos dataWidthByte 0 0
    some (seg, BitVec.ofNat 8 i, pos + i)
  else none

def inBeat (errP p : Nat) : Bool :=
  errP == p || (decide (errP < p + dataWidthByte) && decide (errP > p))

def setState (s : Option MacIntfE) (p : Nat) (errV : Bool) (errP : Nat) (errS : MacIntfE) :
    Option MacIntfE :=
  if errV && inBeat errP p then some errS else s

def dataLoop (pkt : List Byte) (phyErr : Bool) (errPos : Nat) (id : DebugId) :
    Nat → Nat → Option (List MacIntf × Nat)
  | 0, _ => none
  | fuel + 1, pos =>
    if pos + dataWidthByte < pkt.length then do
      let macState ← setState (some .data) pos phyErr errPos .error
      let (seg, segLen, pos) ← getNxtPktSeg pkt pos
      let mac ← fillMacIntf macState seg segLen id
      let (macs, pos) ← dataLoop pkt phyErr errPos id fuel pos
      some (mac :: macs, pos)
    else some ([], pos)

/-- The beats of the packet and `pos` after them. -/
def packetBeats (pkt : List Byte) (phyErr : Bool) (errPos : Nat) (id : DebugId) :
    Option (List MacIntf × Nat) := do
  let macState ← setState (some .start) 0 phyErr errPos .error
  let (seg, _, pos) ← getNxtPktSeg pkt 0
  let first ← fillMacIntf macState seg (BitVec.ofNat 8 dataWidthByte) id
  let (macs, pos) ← dataLoop pkt phyErr errPos id pkt.length pos
  let (seg, segLen, pos) ← getNxtPktSeg pkt pos
  let macState ← setState (getMacTerm segLen.toNat) pos phyErr errPos .error
  let last ← fillMacIntf macState seg segLen id
  some (first :: macs ++ [last], pos)

def toInt (n : Nat) : Int := (BitVec.ofNat 32 n).toInt

def idleCnt (pos : Nat) : Int := (8 - (toInt pos).tmod 8).tdiv dataWidthByte

def phyErrIdleRate : Nat := 4

/-- The idle beats, `idle` being the random bytes from the `k`-th on. -/
def idleLoop (idle : Nat → BitVec 8) : Nat → Nat → Int → Option (List MacIntf)
  | 0, _, _ => none
  | fuel + 1, k, cnt =>
    if cnt > 0 then do
      let macState := if (idle k).toNat % phyErrIdleRate == 0 then .error else .invalid
      let mac ← fillMacIntf macState 0 0 0
      let macs ← idleLoop idle fuel (k + 1) (cnt - dataWidthByte)
      some (mac :: macs)
    else some []

def idleBeats (idle : Nat → BitVec 8) (pos : Nat) : Option (List MacIntf) :=
  idleLoop idle ((idleCnt pos).toNat + 1) 0 (idleCnt pos)

def toSize (e : Int) : Nat := (BitVec.ofInt 64 e).toNat

def skipTransPayload (p : Nat) (errV : Bool) (errP : Int) : Bool := errV && inBeat (toSize errP) p

/-- The data segments, and `pos` after them unless one of them is skipped. -/
def transLoop (data : List Byte) (tErr : Bool) (tErrPos : Int) (id : DebugId) :
    Nat → Nat → Option (List TransData × Option Nat)
  | 0, _ => none
  | fuel + 1, pos =>
    if pos + dataWidthByte < data.length then do
      let (seg, _, pos) ← getNxtPktSeg data pos
      let trans ← fillTransData (BitVec.ofNat 8 dataWidthByte) seg .data id
      if skipTransPayload pos tErr tErrPos then some ([], none)
      else do
        let (ts, stop) ← transLoop data tErr tErrPos id fuel pos
        some (trans :: ts, stop)
    else some ([], some pos)

/-- Where the error lies in the payload. -/
def transErrPos (headLen errPos : Nat) : Int := toInt errPos - toInt headLen

def transErr (headLen : Nat) (phyErr : Bool) (errPos : Nat) : Bool :=
  phyErr && decide (transErrPos headLen errPos ≥ 0)

/-- The segments of the payload that are expected. -/
def transSegments (data : List Byte) (tErr : Bool) (tErrPos : Int) (id : DebugId) :
    Option (List TransData) := do
  let (seg, _, pos) ← getNxtPktSeg data 0
  let first ← fillTransData (BitVec.ofNat 8 dataWidthByte) seg .start id
  if skipTransPayload pos tErr tErrPos then some []
  else do
    let (ts, stop) ← transLoop data tErr tErrPos id data.length pos
    match stop with
    | none => some (first :: ts)
    | some pos => do
      let (seg, segLen, pos) ← getNxtPktSeg data pos
      let last ← fillTransData segLen seg .term id
      if skipTransPayload pos tErr tErrPos then some (first :: ts)
      else some (first :: ts ++ [last])

/-- The ethernet library: a node is an `eth_packet_s`. -/
structure EthLib (ε : Type) where
  updateEthPacketData : ε → List Byte → ε
  writeEthPacket : ε → List Byte
  getHeadLen : ε → Nat

def packetLenMin : Nat := 50

/-- What `tb_rand` draws for a packet: the payload, two numbers for the error and one for each idle
beat. -/
structure Draws where
  data : List Byte
  long : packetLenMin ≤ data.length
  phyErr : BitVec 8
  errPos : BitVec 16
  idle : Nat → BitVec 8

def nodeCnt : Nat := 5

structure Tv (ε : Type) where
  eth : Vector ε nodeCnt
  macFifo : List MacIntf
  dataFifo : List TransData
  pktId : DebugId

def phyErrRate : Nat := 4

def Draws.hasErr (d : Draws) : Bool := d.phyErr.toNat % phyErrRate == 0

def Draws.errAt (d : Draws) (pktLen : Nat) : Nat := d.errPos.toNat % pktLen

-- The assertion lets a `node_id` of `NODE_CNT` pass, which is no node.
def genNewPkt (lib : EthLib ε) (tv : Tv ε) (nodeId : Nat) (d : Draws) : Option (Tv ε) :=
  if nodeId ≤ nodeCnt then do
    let pktId := tv.pktId + 1
    let node ← tv.eth[nodeId]?
    let eth := lib.updateEthPacketData node d.data
    let pkt := lib.writeEthPacket eth
    let phyErr := d.hasErr
    let errPos := d.errAt pkt.length
    let (beats, pos) ← packetBeats pkt phyErr errPos pktId
    let idles ← idleBeats d.idle pos
    let trans ←
      if nodeId ≤ 1 then
        transSegments d.data (transErr (lib.getHeadLen eth) phyErr errPos)
          (transErrPos (lib.getHeadLen eth) errPos) pktId
      else some []
    some
      { eth := tv.eth.setIfInBounds nodeId eth
        macFifo := tv.macFifo ++ (beats ++ idles)
        dataFifo := tv.dataFifo ++ trans
        pktId := pktId }
  else none

end LowLatencyEthernet.Tb
