import LowLatencyEthernet.Tb.Bench
import LowLatencyEthernet.Tb.RandomNumbers
import LowLatencyEthernet.Tb.Segments

namespace LowLatencyEthernet.Tb
set_option autoImplicit true

/-- Unless the register is started with zero, it is not zero when it is read next. -/
def Live (seed : BitVec 16) (s : TbRand.State) : Prop :=
  seed ≠ 0 → (TbRand.start seed s).lfsr ≠ 0

theorem Live.next (h : Live seed s) (c : TbRand.Call) : Live seed (c.next seed s) := by
  intro hseed
  rw [TbRand.start_next, c.next_eq, TbRand.tick_iterate]
  exact TbRand.iterate_ne_zero (h hseed) _

theorem live_statics (seed : BitVec 16) : Live seed ⟨false, 0⟩ := id

theorem upper_uint32 (seed : BitVec 16) (s : TbRand.State) :
    (TbRand.uint32 seed s).1.extractLsb' 16 16 =
      TbRand.lfsr (TbRand.lfsr (TbRand.start seed s).lfsr) := by
  apply BitVec.eq_of_getLsbD_eq
  intro i hi
  have h16 : ¬ 16 + i < 16 := by omega
  have h32 : 16 + i < 32 := by omega
  simp [TbRand.uint32, TbRand.wideLoop, TbRand.tick, hi, h32]

def Admitted (seed : BitVec 16) (i : Nat) (args : EthArgs) : Prop :=
  if i = 0 then args = defaultArgs defaultHasVlan
  else if i = 1 then args = defaultArgs !defaultHasVlan
  else seed ≠ 0 → args.srcIp.extractLsb' 16 16 ≠ 0

def RandArg.call : RandArg → TbRand.Call
  | .srcIp | .dstIp => .uint32
  | .srcPort | .dstPort => .uint16
  | .vtag => .uint8

theorem RandArg.eval_state (a : RandArg) (seed : BitVec 16) (c : EthArgs × TbRand.State) :
    (a.eval seed c).2 = a.call.next seed c.2 := by
  cases a <;> rfl

theorem RandArg.eval_srcIp (a : RandArg) (seed : BitVec 16) (c : EthArgs × TbRand.State) :
    (a.eval seed c).1.srcIp = if a = .srcIp then (TbRand.uint32 seed c.2).1 else c.1.srcIp := by
  cases a <;> rfl

theorem evalArgs_srcIp {as : List RandArg} (hl : Live seed c.2)
    (h : .srcIp ∈ as ∨ (seed ≠ 0 → c.1.srcIp.extractLsb' 16 16 ≠ 0)) :
    (seed ≠ 0 → (as.foldl (RandArg.eval seed) c).1.srcIp.extractLsb' 16 16 ≠ 0) ∧
      Live seed (as.foldl (RandArg.eval seed) c).2 := by
  induction as generalizing c with
  | nil => exact ⟨h.resolve_left List.not_mem_nil, hl⟩
  | cons a as ih =>
    have hl' : Live seed (a.eval seed c).2 := by
      rw [a.eval_state]
      exact hl.next _
    refine ih hl' ?_
    by_cases ha : a = .srcIp
    · right
      intro hseed
      rw [a.eval_srcIp, if_pos ha, upper_uint32]
      exact TbRand.lfsr_ne_zero (TbRand.lfsr_ne_zero (hl hseed))
    · rw [a.eval_srcIp, if_neg ha]
      refine h.imp_left fun hm => ?_
      exact (List.mem_cons.1 hm).resolve_left (Ne.symm ha)

variable {seed : BitVec 16} {lib : EthInit ε} {order : {as : List RandArg // as.Perm RandArg.all}}
  {Is : EthArgs → ε → Prop}

variable (order) in
theorem randArgs_spec (hl : Live seed s) :
    (seed ≠ 0 → (randArgs seed order s).1.srcIp.extractLsb' 16 16 ≠ 0) ∧
      Live seed (randArgs seed order s).2 := by
  have hmem : RandArg.srcIp ∈ order.1 := order.2.mem_iff.2 (by decide)
  have hmac : Live seed (TbRand.uint48 seed (TbRand.uint48 seed s).2).2 :=
    (hl.next .uint48).next .uint48
  exact evalArgs_srcIp hmac (.inl hmem)

/-- `Is args` holds of the nodes that are made from `args`, whatever they have sent, and they write
packets of more than two bytes. -/
structure EthInit.Keeps (lib : EthInit ε) (Is : EthArgs → ε → Prop) : Prop where
  init : ∀ args, Is args (lib.initEthPacket args)
  update : ∀ {args node} data, Is args node → Is args (lib.updateEthPacketData node data)
  long : ∀ {args node} data, Is args node → packetLenMin ≤ data.length →
    data.length < TbRand.packetLenMax →
      2 < (lib.writeEthPacket (lib.updateEthPacketData node data)).length

def NodeIs (seed : BitVec 16) (Is : EthArgs → ε → Prop) (i : Nat) (node : ε) : Prop :=
  ∃ args, Admitted seed i args ∧ Is args node

def NodesAre (seed : BitVec 16) (Is : EthArgs → ε → Prop) (n : Nat) (eth : Vector ε nodeCnt) :
    Prop :=
  ∀ i node, i < n → eth[i]? = some node → NodeIs seed Is i node

theorem getElem?_set_cases {eth : Vector ε nodeCnt}
    (h : (eth.setIfInBounds i node)[j]? = some node') : j = i ∧ node' = node ∨
      j ≠ i ∧ eth[j]? = some node' := by
  rw [Vector.getElem?_setIfInBounds] at h
  by_cases hij : i = j
  · rw [if_pos hij] at h
    split at h
    · exact .inl ⟨hij.symm, (Option.some.inj h).symm⟩
    · cases h
  · rw [if_neg hij] at h
    exact .inr ⟨Ne.symm hij, h⟩

theorem NodesAre.set {eth : Vector ε nodeCnt} (h : NodesAre seed Is n eth)
    (hnode : NodeIs seed Is i node) : NodesAre seed Is n (eth.setIfInBounds i node) := by
  intro j node' hj hget
  rcases getElem?_set_cases hget with ⟨rfl, rfl⟩ | ⟨-, hold⟩
  · exact hnode
  · exact h j node' hj hold

theorem NodesAre.set_next {eth : Vector ε nodeCnt} (h : NodesAre seed Is i eth)
    (hnode : NodeIs seed Is i node) : NodesAre seed Is (i + 1) (eth.setIfInBounds i node) := by
  intro j node' hj hget
  rcases getElem?_set_cases hget with ⟨rfl, rfl⟩ | ⟨hne, hold⟩
  · exact hnode
  · exact h j node' (Nat.lt_of_le_of_ne (Nat.le_of_lt_succ hj) hne) hold

theorem initNodes_spec (hk : lib.Keeps Is) (hi : 2 ≤ i) (hl : Live seed s)
    {eth : Vector ε nodeCnt} (h : NodesAre seed Is i eth) :
    NodesAre seed Is (i + n) (initNodes seed lib order n i eth s).1 := by
  induction n generalizing i eth s with
  | zero => exact h
  | succ n ih =>
    obtain ⟨hsrc, hl'⟩ := randArgs_spec order hl
    have hadm : Admitted seed i (randArgs seed order s).1 := by
      have h0 : i ≠ 0 := by omega
      have h1 : i ≠ 1 := by omega
      rw [Admitted, if_neg h0, if_neg h1]
      exact hsrc
    have hrest := ih (Nat.le_succ_of_le hi) hl' (h.set_next ⟨_, hadm, hk.init _⟩)
    have hcount : i.succ + n = i + (n + 1) := by omega
    rw [hcount] at hrest
    exact hrest

theorem initTv_spec (hk : lib.Keeps Is) (hl : Live seed s) :
    NodesAre seed Is nodeCnt (initTv seed lib order s).1.eth := by
  refine initNodes_spec (n := nodeCnt - 2) hk (Nat.le_refl 2) hl ?_
  intro i node hi hget
  have hcases : i = 0 ∨ i = 1 := by omega
  rcases hcases with rfl | rfl
  · obtain rfl := Option.some.inj hget
    exact ⟨_, rfl, hk.init _⟩
  · obtain rfl := Option.some.inj hget
    exact ⟨_, rfl, hk.init _⟩

theorem length_draw (seed : BitVec 16) (s : TbRand.State) :
    (draw seed s).1.data.length < TbRand.packetLenMax := by
  have hlen : (draw seed s).1.data.length = (TbRand.getPacketLen seed s).1.toNat :=
    length_fillLoop _ _
  have hmod : (TbRand.tick (TbRand.start seed s)).lfsr.toNat %
      (TbRand.packetLenMax - TbRand.packetLenMin) < 1450 := Nat.mod_lt _ (by decide)
  rw [hlen]
  simp only [TbRand.getPacketLen, BitVec.toNat_add, BitVec.toNat_ofNat]
  unfold TbRand.packetLenMin TbRand.packetLenMax at *
  omega

namespace Gen

variable (lib)

def entries (g : Gen ε) : List MacIntf :=
  beatsOf lib.toEthLib g.tv g.node g.draws ++ idlesOf lib.toEthLib g.node g.draws

def trans (g : Gen ε) : List TransData := transOf lib.toEthLib g.tv g.nodeId g.node g.draws

def id (g : Gen ε) : DebugId := g.tv.pktId + 1

/-- The packet comes from a node of its own number and is not too long. -/
structure Sound (seed : BitVec 16) (Is : EthArgs → ε → Prop) (g : Gen ε) : Prop where
  node : NodeIs seed Is g.nodeId g.node
  short : g.draws.data.length < TbRand.packetLenMax

end Gen

/-- A packet that is generated from `tb`, and the state after it. -/
structure Generates (lib : EthInit ε) (Is : EthArgs → ε → Prop) (seed : BitVec 16)
    (tb : TbState ε) (g : Gen ε) (tb' : TbState ε) : Prop where
  sound : g.Sound seed Is
  id : g.id = tb.tv.pktId + 1
  macFifo : tb'.tv.macFifo = tb.tv.macFifo ++ g.entries lib
  dataFifo : tb'.tv.dataFifo = tb.tv.dataFifo ++ g.trans lib
  pktId : tb'.tv.pktId = tb.tv.pktId + 1
  nodes : NodesAre seed Is nodeCnt tb'.tv.eth
  entries : g.entries lib ≠ []

theorem genRandPkt_spec (hk : lib.Keeps Is) (tb : TbState ε)
    (hn : NodesAre seed Is nodeCnt tb.tv.eth) (hlt : nodeId < nodeCnt) : ∃ g tb',
      genRandPkt seed lib tb nodeId = some (g, tb') ∧ g.nodeId = nodeId ∧
        Generates lib Is seed tb g tb' := by
  obtain ⟨node, hnode⟩ : ∃ node, tb.tv.eth[nodeId]? = some node :=
    ⟨_, Vector.getElem?_eq_getElem hlt⟩
  obtain ⟨args, hadm, his⟩ := hn nodeId node hlt hnode
  have hlen := hk.long _ his (draw seed tb.rand).1.long (length_draw seed tb.rand)
  let g : Gen ε := ⟨tb.tv, nodeId, node, (draw seed tb.rand).1⟩
  let tv' : Tv ε :=
    { eth := tb.tv.eth.setIfInBounds nodeId (lib.updateEthPacketData node g.draws.data)
      macFifo := tb.tv.macFifo ++ g.entries lib
      dataFifo := tb.tv.dataFifo ++ g.trans lib
      pktId := tb.tv.pktId + 1 }
  have hgen : genNewPkt lib.toEthLib tb.tv nodeId g.draws = some tv' :=
    genNewPkt_eq lib.toEthLib tb.tv g.draws hnode hlen
  have hidles := idleBeats_eq g.draws.idle (packetOf lib.toEthLib node g.draws).length
  rw [packetOf] at hidles
  obtain ⟨rand, hrun⟩ : ∃ rand, genRandPkt seed lib tb nodeId = some (g, ⟨tv', rand⟩) := by
    rw [genRandPkt, hnode]
    simp only [Option.bind_eq_bind, Option.bind_some]
    rw [hgen, Option.bind_some, hidles]
    exact ⟨_, rfl⟩
  refine ⟨g, ⟨tv', rand⟩, hrun, rfl, ⟨⟨args, hadm, his⟩, length_draw seed tb.rand⟩, rfl, rfl, rfl,
    rfl, ?_, ?_⟩
  · exact hn.set ⟨args, hadm, hk.update _ his⟩
  · have hcount := one_lt_segCount hlen
    have hbeats : beatsOf lib.toEthLib tb.tv node g.draws ≠ [] := by
      rw [beatsOf, ne_eq, List.map_eq_nil_iff, List.range_eq_nil]
      exact Nat.ne_of_gt (Nat.zero_lt_of_lt hcount)
    exact List.append_ne_nil_of_left_ne_nil hbeats _

/-- What is driven in a cycle, an entry if there is one, and what is generated for it. -/
structure Drives (lib : EthInit ε) (Is : EthArgs → ε → Prop) (seed : BitVec 16)
    (tb : TbState ε) (gens : List (Gen ε)) (mac : Option MacIntf) (tb' : TbState ε) : Prop where
  macFifo : tb.tv.macFifo ++ gens.flatMap (Gen.entries lib) = mac.toList ++ tb'.tv.macFifo
  dataFifo : tb'.tv.dataFifo = tb.tv.dataFifo ++ gens.flatMap (Gen.trans lib)
  senders : ∀ g ∈ gens, g.Sound seed Is
  ids : gens.map Gen.id =
    (List.range gens.length).map fun k => tb.tv.pktId + BitVec.ofNat 32 (k + 1)
  pktId : tb'.tv.pktId = tb.tv.pktId + BitVec.ofNat 32 gens.length
  nodes : NodesAre seed Is nodeCnt tb'.tv.eth
  fresh : gens ≠ [] → tb.tv.macFifo = []

theorem drives_nothing {tb : TbState ε} (hn : NodesAre seed Is nodeCnt tb.tv.eth) :
    Drives lib Is seed tb [] none tb where
  macFifo := List.append_nil _
  dataFifo := (List.append_nil _).symm
  senders _ hg := absurd hg List.not_mem_nil
  ids := rfl
  pktId := (BitVec.add_zero _).symm
  nodes := hn
  fresh h := absurd rfl h

theorem Generates.drives {tb tb' : TbState ε} (h : Generates lib Is seed tb g tb')
    (hfifo : tb.tv.macFifo = []) : Drives lib Is seed tb [g] none tb' where
  macFifo := by
    rw [h.macFifo, List.flatMap_singleton]
    rfl
  dataFifo := by rw [h.dataFifo, List.flatMap_singleton]
  senders g' hg' := by
    obtain rfl := List.mem_singleton.1 hg'
    exact h.sound
  ids := congrArg (· :: []) h.id
  pktId := h.pktId
  nodes := h.nodes
  fresh _ := hfifo

theorem Drives.take {tb tb' : TbState ε} (h : Drives lib Is seed tb gens none tb')
    (hfifo : tb'.tv.macFifo = mac :: fifo) : Drives lib Is seed tb gens (some mac)
      { tb' with tv := { tb'.tv with macFifo := fifo } } where
  macFifo := by
    rw [h.macFifo, hfifo]
    rfl
  dataFifo := h.dataFifo
  senders := h.senders
  ids := h.ids
  pktId := h.pktId
  nodes := h.nodes
  fresh := h.fresh

/-- The second pass of the loop finds an entry. -/
theorem tbMacRx_spec (hk : lib.Keeps Is) {tb : TbState ε}
    (hn : NodesAre seed Is nodeCnt tb.tv.eth) : ∃ gens mac tb',
      tbMacRx seed lib 2 tb = some (gens, mac, tb') ∧
        Drives lib Is seed tb gens (some mac) tb' := by
  cases hfifo : tb.tv.macFifo with
  | cons mac fifo =>
    refine ⟨[], mac, _, ?_, (drives_nothing hn).take hfifo⟩
    rw [tbMacRx, hfifo]
  | nil =>
    have hlt : (TbRand.uint16 seed tb.rand).1.toNat % nodeCnt < nodeCnt := Nat.mod_lt _ (by decide)
    obtain ⟨g, tb₁, hgen, -, hg⟩ :=
      genRandPkt_spec hk ⟨tb.tv, (TbRand.uint16 seed tb.rand).2⟩ hn hlt
    obtain ⟨mac, fifo, hmac⟩ := List.exists_cons_of_ne_nil hg.entries
    have hfifo₁ : tb₁.tv.macFifo = mac :: fifo := by
      rw [hg.macFifo, hfifo, List.nil_append, hmac]
    have hd := (hg.drives hfifo).take hfifo₁
    refine ⟨[g], mac, _, ?_, ⟨hd.macFifo, hd.dataFifo, hd.senders, hd.ids, hd.pktId, hd.nodes,
      hd.fresh⟩⟩
    rw [tbMacRx, hfifo]
    simp only [Option.bind_eq_bind, hgen, Option.bind_some]
    rw [tbMacRx, hfifo₁]
    rfl

variable (order) in
theorem initTb_spec (hk : lib.Keeps Is) (hl : Live seed s) : ∃ g tb,
    initTb seed lib order s = some (g, tb) ∧
      Generates lib Is seed ⟨(initTv seed lib order s).1, (initTv seed lib order s).2⟩ g tb := by
  obtain ⟨g, tb, hgen, -, hg⟩ := genRandPkt_spec hk ⟨_, (initTv seed lib order s).2⟩
    (initTv_spec hk hl) (by decide : 0 < nodeCnt)
  exact ⟨g, tb, hgen, hg⟩

end LowLatencyEthernet.Tb
