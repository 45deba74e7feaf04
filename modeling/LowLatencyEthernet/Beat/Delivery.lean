import LowLatencyEthernet.Beat.Wire
import LowLatencyEthernet.Beat.Isolation

namespace LowLatencyEthernet.EthRx
set_option autoImplicit true

open Sync

/-- The contents of a frame that conforms to the configuration, but for the fields that follow from
them: the lengths, the header checksum and the ports. -/
structure Datagram (p : Params) where
  preamble : List Byte
  macDst : List Byte
  macSrc : List Byte
  tci : Option (BitVec 16)
  tos : Byte
  ident : BitVec 16
  ttl : Byte
  ipSrc : BitVec 32
  ipDst : BitVec 32
  options : List (BitVec 16)
  udpLen : BitVec 16
  udpChecksum : BitVec 16
  payload : List Byte
  padding : List Byte
  fcs : List Byte
  preamble_length : preamble.length = 8
  macDst_length : macDst.length = 6
  macSrc_length : macSrc.length = 6
  tci_vlan : tci.isSome = true → p.vlanTag = true
  options_even : options.length % 2 = 0
  options_length : options.length ≤ 20
  payload_ne : payload ≠ []
  fcs_length : fcs.length = 4
  size : 28 + 2 * options.length + payload.length ≤ 65535

namespace Datagram

variable {p : Params} (d : Datagram p)

def ihl : BitVec 4 := BitVec.ofNat 4 (5 + d.options.length / 2)

def totLen : BitVec 16 := BitVec.ofNat 16 (28 + 2 * d.options.length + d.payload.length)

/-- The header words before the checksum: no fragment, UDP. -/
def ipHead : List (BitVec 16) :=
  [(4#4 ++ d.ihl) ++ d.tos, d.totLen, d.ident, 0x4000, d.ttl ++ 17#8]

def ipTail : List (BitVec 16) :=
  [d.ipSrc.extractLsb' 16 16, d.ipSrc.extractLsb' 0 16, d.ipDst.extractLsb' 16 16,
    d.ipDst.extractLsb' 0 16] ++ d.options

def checksum : BitVec 16 := ~~~(OnesComplement.sum (d.ipHead ++ d.ipTail))

def ipHeader : List (BitVec 16) := d.ipHead ++ [d.checksum] ++ d.ipTail

def udpHeader : List (BitVec 16) := [p.srcPort, p.dstPort, d.udpLen, d.udpChecksum]

def macHead : List Byte :=
  d.preamble ++ d.macDst ++ d.macSrc

def tagBytes : List Byte :=
  match d.tci with
  | some tci => be16 0x8100 ++ be16 tci
  | none => []

def bytes : List Byte :=
  d.macHead ++ (d.tagBytes ++ (be16 0x0800 ++
    ((d.ipHeader ++ d.udpHeader).flatMap be16 ++ (d.payload ++ (d.padding ++ d.fcs)))))

/-- The words of the packet, a half beat at the end being filled with `x`. -/
def packetWords (x : Byte) : List Word :=
  (d.ipHeader ++ d.udpHeader).map swapLanes ++ pack x (d.payload ++ (d.padding ++ d.fcs))

theorem length_macHead : d.macHead.length = 20 := by
  simp [macHead, d.preamble_length, d.macDst_length, d.macSrc_length]

theorem length_ipHeader : d.ipHeader.length = 10 + d.options.length := by
  simp [ipHeader, ipHead, ipTail]
  omega

theorem pack_bytes (x : Byte) : ∃ mac : List Word, mac.length = 10 ∧
    pack x d.bytes = mac ++ (pack x d.tagBytes ++ MacRx.ipv4 :: d.packetWords x) := by
  refine ⟨pack x d.macHead, ?_, ?_⟩
  · rw [length_pack, length_macHead]
  · have htag : d.tagBytes.length % 2 = 0 := by
      rw [tagBytes]
      cases d.tci <;> simp [be16]
    rw [bytes, pack_append _ _ _ (by rw [length_macHead]), pack_append _ _ _ htag, pack_be16,
      pack_flatMap_be16]
    rfl

theorem layout (hf : MacRx.Carries f d.bytes) :
    MacRx.headLen (macParams p) f = 11 + d.tagBytes.length / 2 ∧
      MacRx.isIpv4 (macParams p) f = true ∧ ∃ x, words p f = d.packetWords x := by
  obtain ⟨x, hx⟩ := hf.data
  obtain ⟨mac, hmac, hpack⟩ := d.pack_bytes x
  rw [hpack] at hx
  cases htci : d.tci with
  | none =>
    have htag : d.tagBytes = [] := by rw [tagBytes, htci]
    rw [htag] at hx ⊢
    obtain ⟨hl, hi, hp⟩ := MacRx.layout_untagged (p := macParams p) hmac hx
    exact ⟨hl, hi, x, hp⟩
  | some tci =>
    have htag : d.tagBytes = be16 0x8100 ++ be16 tci := by rw [tagBytes, htci]
    have hv : p.vlanTag = true := d.tci_vlan (by rw [htci]; rfl)
    rw [htag] at hx ⊢
    obtain ⟨hl, hi, hp⟩ := MacRx.layout_tagged (p := macParams p) hv hmac hx
    exact ⟨by rw [hl]; simp [be16], hi, x, hp⟩

theorem ihl_packetWords (x : Byte) : Ipv4Rx.ihl (d.packetWords x) = d.ihl := by
  change (swapLanes ((4#4 ++ d.ihl) ++ d.tos)).extractLsb' 0 4 = d.ihl
  rw [extractLsb'_lane0_low, lane0_swapLanes, lane1_append]
  exact BitVec.extractLsb'_append_eq_right

theorem toNat_ihl : d.ihl.toNat = 5 + d.options.length / 2 := by
  have := d.options_length
  rw [ihl, BitVec.toNat_ofNat]
  omega

theorem totLen_packetWords (x : Byte) : Ipv4Rx.totLen (d.packetWords x) = d.totLen :=
  swapLanes_swapLanes d.totLen

theorem toNat_totLen : d.totLen.toNat = 28 + 2 * d.options.length + d.payload.length := by
  have := d.size
  rw [totLen, BitVec.toNat_ofNat]
  omega

theorem headWords_eq (x : Byte) : Ipv4Rx.headWords (d.packetWords x) = 10 + d.options.length := by
  have h := d.options_even
  rw [Ipv4Rx.headWords, ihl_packetWords, toNat_ihl]
  omega

theorem header_eq (x : Byte) :
    Ipv4Rx.header (d.packetWords x) = d.ipHeader.map swapLanes := by
  have hlen : (d.ipHeader.map swapLanes).length = 10 + d.options.length := by
    rw [List.length_map, length_ipHeader]
  rw [Ipv4Rx.header, headWords_eq, packetWords, List.map_append, List.append_assoc,
    List.take_append_of_le_length (by omega), List.take_of_length_le (by omega)]

theorem badChecksum_eq (x : Byte) : Ipv4Rx.badChecksum (d.packetWords x) = false := by
  have hcs : Ipv4Rx.checksum (d.packetWords x) = d.checksum := swapLanes_swapLanes d.checksum
  have hsum : Ipv4Rx.summands (d.packetWords x) = d.ipHead ++ d.ipTail := by
    rw [Ipv4Rx.summands, header_eq]
    have herase : (d.ipHeader.map swapLanes).eraseIdx 5 =
        (d.ipHead ++ d.ipTail).map swapLanes := rfl
    rw [herase, List.map_map]
    exact (List.map_congr_left fun w _ => swapLanes_swapLanes w).trans (List.map_id _)
  rw [Ipv4Rx.badChecksum, hcs, hsum, checksum]
  exact bne_self_eq_false _

theorem filtered_eq (x : Byte) (hsrc : p.matchIpSrcAddr = false) (hdst : p.matchIpDstAddr = false) :
    Ipv4Rx.filtered (ipParams p) (Ipv4Rx.header (d.packetWords x)) = false := by
  have hversion : (swapLanes ((4#4 ++ d.ihl) ++ d.tos)).extractLsb' 4 4 = Ipv4Rx.version := by
    rw [extractLsb'_lane0_high, lane0_swapLanes, lane1_append]
    exact BitVec.extractLsb'_append_eq_left
  have hprot : lane1 (swapLanes (d.ttl ++ 17#8)) = (ipParams p).protocol := by
    rw [lane1_swapLanes, lane0_append]
    rfl
  have hfrag : (swapLanes 0x4000#16).extractLsb' 5 3 = Ipv4Rx.fragFlag := by decide
  have h0 : (d.ipHeader.map swapLanes)[0]? = some (swapLanes ((4#4 ++ d.ihl) ++ d.tos)) := rfl
  have h3 : (d.ipHeader.map swapLanes)[3]? = some (swapLanes 0x4000#16) := rfl
  have h4 : (d.ipHeader.map swapLanes)[4]? = some (swapLanes (d.ttl ++ 17#8)) := rfl
  rw [header_eq, Ipv4Rx.filtered, h0, h3, h4]
  simp [hversion, hprot, hfrag, ipParams, hsrc, hdst]

theorem packetWords_eq (x : Byte) : Ipv4Rx.packetWords (d.packetWords x) =
    14 + d.options.length + (d.payload.length + 1) / 2 := by
  have hpos := List.length_pos_of_ne_nil d.payload_ne
  rw [Ipv4Rx.packetWords, headWords_eq, totLen_packetWords, toNat_totLen]
  omega

theorem length_bytes : d.bytes.length =
    2 * (11 + d.tagBytes.length / 2) + 28 + 2 * d.options.length + d.payload.length +
      (d.padding.length + 4) := by
  have htag : d.tagBytes.length % 2 = 0 := by
    rw [tagBytes]
    cases d.tci <;> simp [be16]
  have hbe (ws : List (BitVec 16)) : (ws.flatMap be16).length = 2 * ws.length := by
    induction ws with
    | nil => rfl
    | cons w ws ih =>
      rw [List.flatMap_cons, List.length_append, ih, List.length_cons]
      have : (be16 w).length = 2 := rfl
      omega
  simp only [bytes, List.length_append, hbe, length_macHead, length_ipHeader, d.fcs_length,
    udpHeader, List.length_cons, List.length_nil]
  have : (be16 0x0800).length = 2 := rfl
  omega

theorem consistent (hf : MacRx.Carries f d.bytes) : Consistent p f := by
  obtain ⟨hl, hi, x, hx⟩ := d.layout hf
  have hlen : 2 * MacRx.headLen (macParams p) f < d.bytes.length := by
    rw [hl, length_bytes]
    omega
  refine ⟨hf.wellFormed hlen, fun _ => ⟨?_, ?_, ?_⟩⟩
  · rw [hx, ihl_packetWords, toNat_ihl]
    omega
  · have hpos := List.length_pos_of_ne_nil d.payload_ne
    rw [hx, ihl_packetWords, toNat_ihl, totLen_packetWords, toNat_totLen]
    omega
  · rw [hx, totLen_packetWords, toNat_totLen, hf.size_payload hlen, hl, length_bytes]
    omega

theorem payloadWords_eq (x : Byte) : (Ipv4Rx.payloadWords (d.packetWords x)).drop 4 =
    (pack x (d.payload ++ (d.padding ++ d.fcs))).take ((d.payload.length + 1) / 2) := by
  have hhead : ((d.ipHeader ++ d.udpHeader).map swapLanes).length = 14 + d.options.length := by
    rw [List.length_map, List.length_append, length_ipHeader]
    simp only [udpHeader, List.length_cons, List.length_nil]
    omega
  have hsub : 14 + d.options.length + (d.payload.length + 1) / 2 - (14 + d.options.length) =
      (d.payload.length + 1) / 2 := by omega
  have hN : 10 + d.options.length + 4 = 14 + d.options.length := by omega
  rw [Ipv4Rx.payloadWords, packetWords_eq, headWords_eq, List.drop_drop, hN, List.drop_take, hsub,
    packetWords, List.drop_left' hhead]

theorem wrongPort_eq (x : Byte) : wrongPort p (d.packetWords x) = false := by
  have hlen : (d.ipHeader.map swapLanes).length = 10 + d.options.length := by
    rw [List.length_map, length_ipHeader]
  have hhead : (Ipv4Rx.payloadWords (d.packetWords x)).head? = some (swapLanes p.srcPort) := by
    rw [Ipv4Rx.payloadWords, packetWords_eq, headWords_eq, List.head?_drop,
      List.getElem?_take_of_lt (by omega), packetWords, List.map_append, List.append_assoc,
      List.getElem?_append_right (by omega), hlen, Nat.sub_self]
    rfl
  rw [wrongPort, hhead]
  simp [swapLanes_swapLanes]

end Datagram

def AppBeat.bytes (a : AppBeat) : List Byte := wordBytes a.data (if a.term then a.termLen else 2)

/-- Beats that carry the bytes `bs` and nothing else, framed. -/
structure Delivers (as : List AppBeat) (bs : List Byte) : Prop where
  length : as.length = (bs.length + 1) / 2
  bytes : as.flatMap AppBeat.bytes = bs
  start : ∀ k a, as[k]? = some a → (a.start = true ↔ k = 0)
  term : ∀ k a, as[k]? = some a → (a.term = true ↔ k + 1 = as.length)
  termLen : ∀ a ∈ as, a.termLen = if bs.length % 2 = 0 then 2 else 1

theorem delivers_pack (hN : Ipv4Rx.packetWords ws = Ipv4Rx.headWords ws + 4 + (bs.length + 1) / 2)
    (hlen : Ipv4Rx.termLen ws = if bs.length % 2 = 0 then 2 else 1)
    (hws : (Ipv4Rx.payloadWords ws).drop 4 = (pack x (bs ++ more)).take ((bs.length + 1) / 2)) :
    Delivers (delivery ws) bs := by
  have hterm (j : Nat) : Ipv4Rx.headWords ws + 4 + j + 1 = Ipv4Rx.packetWords ws ↔
      j + 1 = (bs.length + 1) / 2 := by
    omega
  have hdel : delivery ws = ((pack x (bs ++ more)).take ((bs.length + 1) / 2)).mapIdx
      fun j w => ⟨decide (j = 0), decide (j + 1 = (bs.length + 1) / 2), Ipv4Rx.termLen ws, w⟩ := by
    simp only [delivery, hws, hterm]
  have hsize : (delivery ws).length = (bs.length + 1) / 2 := by
    rw [hdel, List.length_mapIdx, List.length_take, length_pack, List.length_append]
    omega
  have hget (k : Nat) (a : AppBeat) (ha : (delivery ws)[k]? = some a) :
      ∃ w, a = ⟨decide (k = 0), decide (k + 1 = (bs.length + 1) / 2), Ipv4Rx.termLen ws, w⟩ := by
    rw [hdel, List.getElem?_mapIdx, Option.map_eq_some_iff] at ha
    obtain ⟨w, _, rfl⟩ := ha
    exact ⟨w, rfl⟩
  refine ⟨hsize, ?_, ?_, ?_, ?_⟩
  · have hbytes := bytes_pack x bs more _ hlen
    rw [hdel, List.flatMap_def, map_mapIdx]
    simpa only [AppBeat.bytes, decide_eq_true_iff] using hbytes
  · intro k a ha
    obtain ⟨w, rfl⟩ := hget k a ha
    exact decide_eq_true_iff
  · intro k a ha
    obtain ⟨w, rfl⟩ := hget k a ha
    rw [hsize]
    exact decide_eq_true_iff
  · intro a ha
    obtain ⟨k, hk⟩ := List.mem_iff_getElem?.1 ha
    obtain ⟨w, rfl⟩ := hget k a hk
    exact hlen

theorem Datagram.delivers (d : Datagram p) (x : Byte) :
    Delivers (delivery (d.packetWords x)) d.payload := by
  have hlen : Ipv4Rx.termLen (d.packetWords x) = if d.payload.length % 2 = 0 then 2 else 1 := by
    have hpar : (28 + 2 * d.options.length + d.payload.length) % 2 = d.payload.length % 2 := by
      omega
    rw [Ipv4Rx.termLen, d.totLen_packetWords, d.toNat_totLen, hpar]
  have hN : Ipv4Rx.packetWords (d.packetWords x) =
      Ipv4Rx.headWords (d.packetWords x) + 4 + (d.payload.length + 1) / 2 := by
    rw [d.headWords_eq, d.packetWords_eq]
    omega
  exact delivers_pack hN hlen (d.payloadWords_eq x)

def Datagram.frame (d : Datagram p) : List MacRx.Beat :=
  MacRx.framed (pack 0 d.bytes) (if d.bytes.length % 2 = 0 then 2 else 1)

theorem Datagram.carries_frame (d : Datagram p) : MacRx.Carries d.frame d.bytes :=
  MacRx.carries_framed 0 d.bytes

def Conforming (p : Params) (f : List MacRx.Beat) : Prop :=
  ∃ d : Datagram p, MacRx.Carries f d.bytes

theorem Conforming.consistent (hf : Conforming p f) : Consistent p f := by
  obtain ⟨d, hd⟩ := hf
  exact d.consistent hd

theorem Conforming.verdict_ne (hf : Conforming p f) : verdict p f ≠ .corrupt := by
  obtain ⟨d, hd⟩ := hf
  obtain ⟨_, _, x, hx⟩ := d.layout hd
  rw [verdict, verdictOf, hx, d.badChecksum_eq, if_neg Bool.false_ne_true]
  split
  · exact Verdict.noConfusion
  · exact Verdict.noConfusion

theorem gate_conforming {fs : List (List MacRx.Beat)} (hfs : ∀ f ∈ fs, Conforming p f) :
    gate.run .free (fs.map (verdict p)) = .free := by
  induction fs with
  | nil => rfl
  | cons f fs ih =>
    have hv := (hfs f List.mem_cons_self).verdict_ne
    have hrest := ih fun h hm => hfs h (List.mem_cons_of_mem _ hm)
    have hfree : gate.next .free (verdict p f) = .free := by
      cases hf : verdict p f with
      | corrupt => exact absurd hf hv
      | filtered => rfl
      | accepted bs => rfl
    rw [List.map_cons, Mealy.run_cons, hfree, hrest]

abbrev ConformingReception (p : Params) := Sync.Reception beat MacRx.Idle (Conforming p)

theorem frames_conforming (rs : List (ConformingReception p)) :
    ∀ f ∈ rs.map Reception.frame, Conforming p f := by
  intro f hf
  obtain ⟨r, _, rfl⟩ := List.mem_map.1 hf
  exact r.whole

theorem delivered_free (hs : Sim p s (.invalid, layers s')) (past : List (ConformingReception p))
    (r : ConsistentReception p) :
    delivered (machine p) port ((machine p).run s (Reception.allCycles past)) r.cycles =
      gate.out .free (verdict p r.frame) := by
  have hc : ∀ f, Conforming p f → Consistent p f := fun f hf => hf.consistent
  have hdel := delivered_gate hs (gateRel_layers s') (past.map (Reception.weaken hc)) r
  have hfree := gate_conforming (frames_conforming past)
  rw [List.map_map] at hfree
  have hverdicts : verdicts (past.map (Reception.weaken hc)) =
      past.map (verdict p ∘ Reception.frame) := by
    rw [verdicts, List.map_map]
    rfl
  rwa [Reception.allCycles_weaken, hverdicts, hfree] at hdel

def plainParams (srcPort dstPort : BitVec 16) (ipSrc ipDst : BitVec 32) : Params :=
  ⟨true, false, false, ipSrc, ipDst, srcPort, dstPort⟩

/-- After any conforming frames, the frame of a conforming datagram delivers its payload. -/
theorem delivers_payload (srcPort dstPort : BitVec 16) (ipSrc ipDst : BitVec 32) (s₀ : State)
    (i₀ : In) :
    let p := plainParams srcPort dstPort ipSrc ipDst
    ∀ (past : List (ConformingReception p)) (d : Datagram p)
      (r : Sync.Reception beat MacRx.Idle (MacRx.Carries · d.bytes)),
      Delivers (delivered (machine p) port
        ((machine p).run (reset p s₀ i₀) (Reception.allCycles past)) r.cycles) d.payload := by
  intro p past d r
  have hd : ∀ f, MacRx.Carries f d.bytes → Consistent p f := fun f hf => d.consistent hf
  have hdel := delivered_free (sim_reset p s₀ i₀) past (r.weaken hd)
  obtain ⟨_, hi, x, hx⟩ := d.layout r.whole
  have hreach : reachesUdp p r.frame = true := by
    rw [reachesUdp, hi, hx, d.filtered_eq x rfl rfl]
    rfl
  have hverdict : verdict p r.frame = .accepted (delivery (d.packetWords x)) := by
    rw [verdict, verdictOf, hreach, hx, d.badChecksum_eq, d.wrongPort_eq]
    rfl
  have heq : delivered (machine p) port
      ((machine p).run (reset p s₀ i₀) (Reception.allCycles past)) r.cycles =
      gate.out .free (verdict p r.frame) := hdel
  rw [heq, hverdict]
  exact d.delivers x

end LowLatencyEthernet.EthRx
