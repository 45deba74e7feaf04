import LowLatencyEthernet.Arith.Lfsr
import LowLatencyEthernet.Tb.Segments

namespace LowLatencyEthernet.Tb
set_option autoImplicit true

/-- The first `len` bytes of a beat, least significant first. -/
def MacIntf.bytes (b : MacIntf) : List Byte := [lane0 b.data, lane1 b.data].take b.len.toNat

theorem take_segWord {bs : List Byte} (h : k < segCount bs.length) :
    [lane0 (segWord (bs.drop (2 * k))), lane1 (segWord (bs.drop (2 * k)))].take
      (segLen bs.length k) = (bs.drop (2 * k)).take 2 := by
  have hlt := seg_lt h
  have hlen : (bs.drop (2 * k)).length = bs.length - 2 * k := List.length_drop
  rcases hd : bs.drop (2 * k) with _ | ⟨a, _ | ⟨b, rest⟩⟩
  · rw [hd] at hlen
    simp only [List.length_nil] at hlen
    omega
  · have h1 : segLen bs.length k = 1 := by
      rw [hd] at hlen
      simp only [List.length_cons, List.length_nil] at hlen
      unfold segLen
      omega
    rw [h1, segWord, lane0_lanes]
    rfl
  · have h2 : segLen bs.length k = 2 := by
      rw [hd] at hlen
      simp only [List.length_cons] at hlen
      unfold segLen
      omega
    rw [h2, segWord, lane0_lanes, lane1_lanes]
    rfl

theorem bytes_beatAt {pkt : List Byte} (h : k < segCount pkt.length) (phyErr : Bool)
    (errPos : Nat) (id : DebugId) :
    (beatAt pkt phyErr errPos id k).bytes = (pkt.drop (2 * k)).take 2 := by
  rw [← take_segWord h, ← toNat_segLen h]
  rfl

theorem flatMap_take_drop (bs : List α) (n : Nat) :
    (List.range n).flatMap (fun k => (bs.drop (2 * k)).take 2) = bs.take (2 * n) := by
  induction n with
  | zero => rfl
  | succ n ih =>
    rw [List.range_succ, List.flatMap_append, ih, List.flatMap_singleton, Nat.mul_succ,
      List.take_add]

theorem bytes_beatsOf (lib : EthLib ε) (tv : Tv ε) (node : ε) (d : Draws) :
    (beatsOf lib tv node d).flatMap MacIntf.bytes = packetOf lib node d := by
  have hfull : (packetOf lib node d).length ≤ 2 * segCount (packetOf lib node d).length := by
    unfold segCount
    omega
  rw [beatsOf, List.flatMap_map, List.flatMap_congr fun k hk =>
    bytes_beatAt (List.mem_range.1 hk) _ _ _, flatMap_take_drop, List.take_of_length_le hfull]

def MacIntf.Is (b : MacIntf) (state : MacIntfE) : Prop := b = beatOf state b.data b.len b.id

/-- The beats of a packet without an error, and the idle beats after it. -/
structure Segmentation (pkt : List Byte) where
  first : MacIntf
  mids : List MacIntf
  last : MacIntf
  idles : List MacIntf
  first_is : first.Is .start ∧ first.len = 2
  mids_are : ∀ b ∈ mids, b.Is .data ∧ b.len = 2
  last_is : last.Is .term1 ∧ last.len = 1 ∨ last.Is .term2 ∧ last.len = 2
  idles_are : ∀ b ∈ idles, (b.valid = false ∨ b.Is .error) ∧ b.len = 0
  bytes : (first :: mids ++ last :: idles).flatMap MacIntf.bytes = pkt

theorem idleAt_is (idle : Nat → BitVec 8) (k : Nat) :
    ((idleAt idle k).valid = false ∨ (idleAt idle k).Is .error) ∧ (idleAt idle k).len = 0 := by
  unfold idleAt
  split
  · exact ⟨.inr rfl, rfl⟩
  · exact ⟨.inl rfl, rfl⟩

theorem idlesOf_are (hb : b ∈ idlesOf lib node d) :
    (b.valid = false ∨ b.Is .error) ∧ b.len = 0 := by
  obtain ⟨k, -, rfl⟩ := List.mem_map.1 hb
  exact idleAt_is d.idle k

theorem bytes_idlesOf (lib : EthLib ε) (node : ε) (d : Draws) :
    (idlesOf lib node d).flatMap MacIntf.bytes = [] := by
  rw [List.flatMap_eq_nil_iff]
  intro b hb
  rw [MacIntf.bytes, (idlesOf_are hb).2]
  rfl

section

variable {pkt : List Byte} {errPos : Nat} {id : DebugId}

theorem beatAt_start (h : 1 < segCount pkt.length) :
    (beatAt pkt false errPos id 0).Is .start ∧ (beatAt pkt false errPos id 0).len = 2 := by
  simp [MacIntf.Is, beatAt, beatOf, stateAt, segLen_full h]

theorem beatAt_data (h0 : k ≠ 0) (h : k + 1 < segCount pkt.length) :
    (beatAt pkt false errPos id k).Is .data ∧ (beatAt pkt false errPos id k).len = 2 := by
  have hne : k + 1 ≠ segCount pkt.length := Nat.ne_of_lt h
  simp [MacIntf.Is, beatAt, beatOf, stateAt, h0, hne, segLen_full h]

theorem beatAt_term (h0 : k ≠ 0) (h : k + 1 = segCount pkt.length) :
    (beatAt pkt false errPos id k).Is .term1 ∧ (beatAt pkt false errPos id k).len = 1 ∨
      (beatAt pkt false errPos id k).Is .term2 ∧ (beatAt pkt false errPos id k).len = 2 := by
  have hk : k < segCount pkt.length := by omega
  have hstate : stateAt pkt.length false errPos k = termState (segLen pkt.length k) := by
    simp [stateAt, h0, h]
  rcases segLen_cases hk with hl | hl
  · exact .inl (by simp [MacIntf.Is, beatAt, beatOf, hstate, hl, termState])
  · exact .inr (by simp [MacIntf.Is, beatAt, beatOf, hstate, hl, termState])

end

theorem beatsOf_ends (lib : EthLib ε) (tv : Tv ε) (node : ε) (d : Draws)
    (hn : 1 < segCount (packetOf lib node d).length) (he : d.hasErr = false) :
    let beat := beatAt (packetOf lib node d) false (d.errAt (packetOf lib node d).length)
      (tv.pktId + 1)
    beatsOf lib tv node d =
      beat 0 :: (List.range (segCount (packetOf lib node d).length - 1 - 1)).map
        (fun j => beat (1 + j)) ++ [beat (segCount (packetOf lib node d).length - 1)] := by
  intro beat
  rw [beatsOf, he, map_range_ends _ hn]

def segmentationOf (lib : EthLib ε) (tv : Tv ε) (node : ε) (d : Draws)
    (hn : 1 < segCount (packetOf lib node d).length) (he : d.hasErr = false) :
    Segmentation (packetOf lib node d) :=
  let beat := beatAt (packetOf lib node d) false (d.errAt (packetOf lib node d).length)
    (tv.pktId + 1)
  { first := beat 0
    mids := (List.range (segCount (packetOf lib node d).length - 1 - 1)).map fun j => beat (1 + j)
    last := beat (segCount (packetOf lib node d).length - 1)
    idles := idlesOf lib node d
    first_is := beatAt_start hn
    mids_are := by
      intro b hb
      obtain ⟨j, hj, rfl⟩ := List.mem_map.1 hb
      have hlt := List.mem_range.1 hj
      exact beatAt_data (by omega) (by omega)
    last_is := beatAt_term (by omega) (by omega)
    idles_are := fun _ hb => idlesOf_are hb
    bytes := by
      have hbeats := bytes_beatsOf lib tv node d
      rw [beatsOf_ends lib tv node d hn he] at hbeats
      rw [List.append_cons, List.flatMap_append, hbeats, bytes_idlesOf, List.append_nil] }

def sampleHead (len : Nat) : List Byte :=
  let total := BitVec.ofNat 16 (28 + len)
  let cs := 0x3aed - total
  [0x55, 0x55, 0x55, 0x55, 0x55, 0x55, 0x55, 0xd5, 0xfc, 0xfc, 0x48, 0, 0, 0, 0, 0, 1, 0, 0, 0,
    0x81, 0, 0, 0xaa, 8, 0, 0x45, 0, total.extractLsb' 8 8, total.extractLsb' 0 8, 0, 0, 0x40, 0,
    0x40, 0x11, cs.extractLsb' 8 8, cs.extractLsb' 0 8, 0, 0, 0, 1, 0, 0, 0, 0, 0x46, 0x96, 0x46,
    0x96, (total - 20).extractLsb' 8 8, (total - 20).extractLsb' 0 8, 0, 0]

def sampleFoot (bs : List Byte) : List Byte :=
  let crc := bs.foldl (Lfsr.absorb 0x04c11db7#32) (BitVec.allOnes 32)
  [crc.extractLsb' 24 8, crc.extractLsb' 16 8, crc.extractLsb' 8 8, crc.extractLsb' 0 8]

def sampleLib : EthLib (List Byte) where
  updateEthPacketData _ data := data
  writeEthPacket data :=
    sampleHead data.length ++ data ++ sampleFoot ((sampleHead data.length).drop 8 ++ data)
  getHeadLen _ := 54

def sampleTv : Tv (List Byte) := ⟨Vector.replicate 5 [], [], [], 0⟩

def sampleDraws (n : Nat) (phyErr : BitVec 8) (errPos : BitVec 16) : Draws where
  data := List.replicate (packetLenMin + n) 0
  long := by
    rw [List.length_replicate]
    exact Nat.le_add_right _ n
  phyErr := phyErr
  errPos := errPos
  idle := fun _ => 1

/-- No assertion fails, the loops end, and the beats carry the packet. -/
theorem packet_segmented (lib : EthLib ε) (tv : Tv ε) (d : Draws) {pkt : List Byte}
    (hnode : tv.eth[nodeId]? = some node)
    (hpkt : lib.writeEthPacket (lib.updateEthPacketData node d.data) = pkt) (hlen : 2 < pkt.length)
    (he : d.hasErr = false) : ∃ (tv' : Tv ε) (s : Segmentation pkt),
      genNewPkt lib tv nodeId d = some tv' ∧
        tv'.macFifo = tv.macFifo ++ (s.first :: s.mids ++ s.last :: s.idles) := by
  subst hpkt
  have hn : 1 < segCount (packetOf lib node d).length := one_lt_segCount hlen
  have hbeats := beatsOf_ends lib tv node d hn he
  refine ⟨_, segmentationOf lib tv node d hn he, genNewPkt_eq lib tv d hnode hlen, ?_⟩
  rw [hbeats, List.append_assoc]
  rfl

theorem packet_segmented_sample : ∃ (tv' : Tv (List Byte))
    (s : Segmentation (sampleLib.writeEthPacket (List.replicate 52 0))),
      genNewPkt sampleLib sampleTv 0 (sampleDraws 2 1 0) = some tv' ∧
        tv'.macFifo = sampleTv.macFifo ++ (s.first :: s.mids ++ s.last :: s.idles) :=
  packet_segmented sampleLib sampleTv (sampleDraws 2 1 0) rfl rfl (by decide) rfl

/-- The idle beats that follow a packet of `len` bytes. -/
def idleCount (len : Nat) : Nat := ((idleCnt len).toNat + 1) / 2

theorem toInt_of_lt (h : n < 2 ^ 31) : toInt n = (n : Int) := by
  rw [toInt, BitVec.toInt_eq_toNat_cond, BitVec.toNat_ofNat, if_pos (by omega)]
  omega

theorem idleCount_eq (h : len % 2 ^ 32 < 2 ^ 31) : idleCount len = ((8 - len % 8) / 2 + 1) / 2 := by
  have hint : toInt len = ((len % 2 ^ 32 : Nat) : Int) := by
    rw [toInt, BitVec.toInt_eq_toNat_cond, BitVec.toNat_ofNat, if_pos (by omega)]
  have hmod : (toInt len).tmod 8 = ((len % 8 : Nat) : Int) := by
    rw [hint, Int.tmod_eq_emod_of_nonneg (Int.natCast_nonneg _)]
    omega
  rw [idleCount, idleCnt, hmod, Int.tdiv_eq_ediv_of_nonneg (by omega), dataWidthByte]
  omega

/-- A position that turns negative adds blocks of its own. -/
theorem idleCount_neg (h : 2 ^ 31 ≤ len % 2 ^ 32) :
    idleCount len = ((8 + (8 - len % 8) % 8) / 2 + 1) / 2 := by
  have hint : toInt len = -((2 ^ 32 - len % 2 ^ 32 : Nat) : Int) := by
    rw [toInt, BitVec.toInt_eq_toNat_cond, BitVec.toNat_ofNat, if_neg (by omega)]
    omega
  have hmod : (toInt len).tmod 8 = -(((8 - len % 8) % 8 : Nat) : Int) := by
    rw [hint, Int.neg_tmod, Int.tmod_eq_emod_of_nonneg (Int.natCast_nonneg _)]
    omega
  rw [idleCount, idleCnt, hmod, Int.tdiv_eq_ediv_of_nonneg (by omega), dataWidthByte]
  omega

theorem count_aligned_iff (len : Nat) :
    (segCount len + idleCount len) % 4 = 0 ∧ idleCount len < 4 ↔
      5 ≤ len % 8 ∧ len % 2 ^ 32 < 2 ^ 31 := by
  unfold segCount
  by_cases h : len % 2 ^ 32 < 2 ^ 31
  · rw [idleCount_eq h]
    omega
  · rw [idleCount_neg (Nat.le_of_not_lt h)]
    omega

theorem beatsOf_len_ne_zero (hb : b ∈ beatsOf lib tv node d) : b.len ≠ 0 := by
  obtain ⟨k, hk, rfl⟩ := List.mem_map.1 hb
  rcases segLen_cases (List.mem_range.1 hk) with hl | hl <;> simp [beatAt, beatOf, hl]

theorem filter_idles (lib : EthLib ε) (tv : Tv ε) (node : ε) (d : Draws) :
    (beatsOf lib tv node d ++ idlesOf lib node d).filter (fun b => b.len = 0) =
      idlesOf lib node d := by
  have hbeats : (beatsOf lib tv node d).filter (fun b => b.len = 0) = [] := by
    rw [List.filter_eq_nil_iff]
    intro b hb
    simpa using beatsOf_len_ne_zero hb
  have hidles : (idlesOf lib node d).filter (fun b => b.len = 0) = idlesOf lib node d := by
    rw [List.filter_eq_self]
    intro b hb
    simpa using (idlesOf_are hb).2
  rw [List.filter_append, hbeats, hidles, List.nil_append]

/-- The entries of a packet fill blocks of four beats, and less than one block of them is idle. -/
structure BlockAligned (entries : List MacIntf) : Prop where
  blocks : entries.length % 4 = 0
  idles : (entries.filter fun b => b.len = 0).length < 4

/-- The division halves the idle bytes and the loop halves them again. -/
theorem block_aligned_iff (lib : EthLib ε) (tv : Tv ε) (d : Draws) {pkt : List Byte}
    (hnode : tv.eth[nodeId]? = some node)
    (hpkt : lib.writeEthPacket (lib.updateEthPacketData node d.data) = pkt)
    (hlen : 2 < pkt.length) :
    (∃ tv' entries, genNewPkt lib tv nodeId d = some tv' ∧
      tv'.macFifo = tv.macFifo ++ entries ∧ BlockAligned entries) ↔
        5 ≤ pkt.length % 8 ∧ pkt.length % 2 ^ 32 < 2 ^ 31 := by
  subst hpkt
  have hgen := genNewPkt_eq lib tv d hnode hlen
  have hlength : (beatsOf lib tv node d ++ idlesOf lib node d).length =
      segCount (packetOf lib node d).length + idleCount (packetOf lib node d).length := by
    rw [List.length_append, beatsOf, idlesOf, List.length_map, List.length_map, List.length_range,
      List.length_range, idleCount]
  have hidles : ((beatsOf lib tv node d ++ idlesOf lib node d).filter
      fun b => b.len = 0).length = idleCount (packetOf lib node d).length := by
    rw [filter_idles, idlesOf, List.length_map, List.length_range, idleCount]
  have haligned : BlockAligned (beatsOf lib tv node d ++ idlesOf lib node d) ↔
      5 ≤ (packetOf lib node d).length % 8 ∧ (packetOf lib node d).length % 2 ^ 32 < 2 ^ 31 := by
    rw [← count_aligned_iff, ← hlength, ← hidles]
    exact ⟨fun h => ⟨h.blocks, h.idles⟩, fun h => ⟨h.1, h.2⟩⟩
  refine Iff.trans ?_ haligned
  constructor
  · rintro ⟨tv', entries, hrun, hfifo, h⟩
    cases hrun.symm.trans hgen
    rwa [List.append_cancel_left hfifo]
  · intro h
    exact ⟨_, _, hgen, rfl, h⟩

theorem block_aligned_sample : (∃ tv' entries,
    genNewPkt sampleLib sampleTv 0 (sampleDraws 2 1 0) = some tv' ∧
      tv'.macFifo = sampleTv.macFifo ++ entries ∧ BlockAligned entries) ↔
        5 ≤ 110 % 8 ∧ 110 % 2 ^ 32 < 2 ^ 31 :=
  block_aligned_iff sampleLib sampleTv (sampleDraws 2 1 0) rfl rfl (by decide)

/-- The last beat of 112 bytes ends a block, and two idle beats follow. -/
theorem not_block_aligned : ¬ ∃ tv' entries,
    genNewPkt sampleLib sampleTv 0 (sampleDraws 4 1 0) = some tv' ∧
      tv'.macFifo = sampleTv.macFifo ++ entries ∧ BlockAligned entries := by
  rintro ⟨tv', entries, hrun, hfifo, h⟩
  have hlength : (genNewPkt sampleLib sampleTv 0 (sampleDraws 4 1 0)).map (·.macFifo.length) =
      some 58 := by decide +kernel
  rw [hrun, Option.map_some, hfifo] at hlength
  have hcount : entries.length = 58 := Option.some.inj hlength
  have hblocks := h.blocks
  rw [hcount] at hblocks
  exact absurd hblocks (by decide)

end LowLatencyEthernet.Tb
