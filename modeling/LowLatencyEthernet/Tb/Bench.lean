import LowLatencyEthernet.Tb.TbRand
import LowLatencyEthernet.Tb.TestVector

namespace LowLatencyEthernet.Tb
set_option autoImplicit true

/-! The test bench `tb`: its nodes, the packets they send and what its calls hand to the
simulator. -/

/-- The arguments of `init_eth_packet`. -/
structure EthArgs where
  dstMac : Vector Byte 6
  srcMac : Vector Byte 6
  srcIp : BitVec 32
  dstIp : BitVec 32
  srcPort : BitVec 16
  dstPort : BitVec 16
  vtag : Bool
deriving DecidableEq, Repr

structure EthInit (ε : Type) extends EthLib ε where
  initEthPacket : EthArgs → ε

def defaultHasVlan : Bool := true

/-- The default arguments, with or without a tag. -/
def defaultArgs (vtag : Bool) : EthArgs where
  dstMac := #v[0xfc, 0xfc, 0x48, 0, 0, 0]
  srcMac := #v[0, 0, 1, 0, 0, 0]
  srcIp := 1
  dstIp := 0
  srcPort := 18070
  dstPort := 18070
  vtag := vtag

/-- The arguments that are drawn in the call itself. -/
inductive RandArg where
  | srcIp
  | dstIp
  | srcPort
  | dstPort
  | vtag
deriving DecidableEq, Repr

def RandArg.all : List RandArg := [.srcIp, .dstIp, .srcPort, .dstPort, .vtag]

def RandArg.eval (seed : BitVec 16) (c : EthArgs × TbRand.State) : RandArg → EthArgs × TbRand.State
  | .srcIp =>
    let (r, s) := TbRand.uint32 seed c.2
    ({ c.1 with srcIp := r }, s)
  | .dstIp =>
    let (r, s) := TbRand.uint32 seed c.2
    ({ c.1 with dstIp := r }, s)
  | .srcPort =>
    let (r, s) := TbRand.uint16 seed c.2
    ({ c.1 with srcPort := r }, s)
  | .dstPort =>
    let (r, s) := TbRand.uint16 seed c.2
    ({ c.1 with dstPort := r }, s)
  | .vtag =>
    let (r, s) := TbRand.uint8 seed c.2
    ({ c.1 with vtag := r.toNat % 2 != 0 }, s)

-- C leaves open in which order the arguments of a call are evaluated.
variable (seed : BitVec 16) (lib : EthInit ε) (order : {as : List RandArg // as.Perm RandArg.all})

def randArgs (s : TbRand.State) : EthArgs × TbRand.State :=
  let (macDst, s) := TbRand.uint48 seed s
  let (macSrc, s) := TbRand.uint48 seed s
  order.1.foldl (RandArg.eval seed) (⟨macDst, macSrc, 0, 0, 0, 0, false⟩, s)

def initNodes (n i : Nat) (eth : Vector ε nodeCnt) (s : TbRand.State) :
    Vector ε nodeCnt × TbRand.State :=
  match n with
  | 0 => (eth, s)
  | n + 1 =>
    let (args, s) := randArgs seed order s
    initNodes n (i + 1) (eth.setIfInBounds i (lib.initEthPacket args)) s

-- The array holds a copy of node 0 where the source has not set it yet.
def initTv (s : TbRand.State) : Tv ε × TbRand.State :=
  let eth := (Vector.replicate nodeCnt (lib.initEthPacket (defaultArgs defaultHasVlan))).set 1
    (lib.initEthPacket (defaultArgs !defaultHasVlan))
  let (eth, s) := initNodes seed lib order (nodeCnt - 2) 2 eth s
  (⟨eth, [], [], 0⟩, s)

theorem packetLenMin_le (s : TbRand.State) :
    packetLenMin ≤ (TbRand.getPacketLen seed s).1.toNat := by
  have hmod : (TbRand.tick (TbRand.start seed s)).lfsr.toNat %
      (TbRand.packetLenMax - TbRand.packetLenMin) < 1450 := Nat.mod_lt _ (by decide)
  simp only [TbRand.getPacketLen, BitVec.toNat_add, BitVec.toNat_ofNat]
  unfold TbRand.packetLenMin packetLenMin at *
  omega

theorem length_fillLoop (s : TbRand.State) (n : Nat) : (TbRand.fillLoop s n).1.length = n := by
  induction n generalizing s with
  | zero => rfl
  | succ n ih => exact congrArg Nat.succ (ih _)

def afterBytes (s : TbRand.State) : Nat → TbRand.State
  | 0 => s
  | k + 1 => (TbRand.uint8 seed (afterBytes s k)).2

/-- What `gen_new_pkt` draws, and the state before the bytes of the idle beats. -/
def draw (s : TbRand.State) : Draws × TbRand.State :=
  let len := TbRand.getPacketLen seed s
  let data := TbRand.fillPacket seed len.2 len.1.toNat
  let phyErr := TbRand.uint8 seed data.2
  let errPos := TbRand.uint16 seed phyErr.2
  ({ data := data.1
     long := by
      have hlen : data.1.length = len.1.toNat := length_fillLoop _ _
      rw [hlen]
      exact packetLenMin_le seed s
     phyErr := phyErr.1
     errPos := errPos.1
     idle := fun k => (TbRand.uint8 seed (afterBytes seed errPos.2 k)).1 }, errPos.2)

structure TbState (ε : Type) where
  tv : Tv ε
  rand : TbRand.State

/-- A call of `gen_new_pkt`: the test vector before it, the node and what is drawn. -/
structure Gen (ε : Type) where
  tv : Tv ε
  nodeId : Nat
  node : ε
  draws : Draws

def genRandPkt (tb : TbState ε) (nodeId : Nat) : Option (Gen ε × TbState ε) := do
  let node ← tb.tv.eth[nodeId]?
  let (d, rand) := draw seed tb.rand
  let tv ← genNewPkt lib.toEthLib tb.tv nodeId d
  let pkt := lib.writeEthPacket (lib.updateEthPacketData node d.data)
  let idles ← idleBeats d.idle pkt.length
  some (⟨tb.tv, nodeId, node, d⟩, ⟨tv, afterBytes seed rand idles.length⟩)

def initTb (s : TbRand.State) : Option (Gen ε × TbState ε) :=
  let (tv, rand) := initTv seed lib order s
  genRandPkt seed lib ⟨tv, rand⟩ 0

/-- The packets that have to be generated and the entry that is driven. The jump back to
`READ_MAC_FIFO` takes its number of passes as fuel. -/
def tbMacRx : Nat → TbState ε → Option (List (Gen ε) × MacIntf × TbState ε)
  | 0, _ => none
  | fuel + 1, tb =>
    match tb.tv.macFifo with
    | mac :: fifo => some ([], mac, { tb with tv := { tb.tv with macFifo := fifo } })
    | [] => do
      let (r, rand) := TbRand.uint16 seed tb.rand
      let (gen, tb) ← genRandPkt seed lib { tb with rand := rand } (r.toNat % nodeCnt)
      let (gens, mac, tb) ← tbMacRx fuel tb
      some (gen :: gens, mac, tb)

structure Expected where
  valid : Bool
  data : Word
  len : BitVec 8
  start : Bool
  id : DebugId
deriving DecidableEq, Repr

/-- The values for an entry, or those for an empty fifo. -/
def Expected.of : Option TransData → Expected
  | some e => ⟨decide (e.state ≠ .invalid), e.data, e.len, decide (e.state = .start), e.id⟩
  | none => ⟨false, 0, 0, false, 0⟩

def tbUdpDataRx (tb : TbState ε) : Expected × TbState ε :=
  (.of tb.tv.dataFifo.head?, { tb with tv := { tb.tv with dataFifo := tb.tv.dataFifo.tail } })

end LowLatencyEthernet.Tb
