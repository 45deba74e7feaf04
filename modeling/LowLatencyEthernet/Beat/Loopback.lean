import LowLatencyEthernet.Beat.Delivery
import LowLatencyEthernet.Beat.FrameSequence

namespace LowLatencyEthernet
set_option autoImplicit true

open Sync

namespace EthRx

theorem Delivers.term_mem (h : Delivers as bs) (hne : bs ≠ []) : ∃ a ∈ as, a.term = true := by
  have hpos := List.length_pos_of_ne_nil hne
  have hlen := h.length
  have hlt : as.length - 1 < as.length := by omega
  refine ⟨as[as.length - 1], List.getElem_mem hlt, ?_⟩
  exact (h.term _ _ (List.getElem?_eq_getElem hlt)).2 (by omega)

/-- The packet gets past every check of the layers and is carried in full. -/
structure Passes (q : Params) (hc : BitVec 16) (ws : List Word) : Prop where
  totLen : 2 ≤ (Ipv4Rx.totLen ws).toNat
  filters : Ipv4Rx.filtered (ipParams q) (Ipv4Rx.header ws) = false
  checksum : Ipv4Rx.corrupt hc (Ipv4Rx.header ws) = false
  port : wrongPort q ws = false
  payload : Ipv4Rx.headWords ws + 5 ≤ Ipv4Rx.packetWords ws
  fits : Ipv4Rx.packetWords ws ≤ ws.length

theorem Passes.emit (h : Passes q hc ws) (tl : BitVec 16) (l : BitVec 2) :
    (stack q).emit (⟨.idle, tl, hc⟩, .idle) (Ipv4Rx.beats ws l) = delivery ws := by
  obtain ⟨_, hemit⟩ := datagramBeats_run (p := q) h.payload h.fits
  rw [stack, Transducer.cascade_emit, Ipv4Rx.emit_beats fun _ => h.totLen,
    passed_clear h.filters h.checksum, hemit, h.port]
  rfl

theorem passes_of_term (h3 : 3 ≤ ws.length) (hlen : ws.length ≤ 20000)
    (ha : a ∈ (stack q).emit (⟨.idle, tl, hc⟩, .idle) (Ipv4Rx.beats ws l))
    (ht : a.term = true) : Passes q hc ws := by
  rw [stack, Transducer.cascade_emit] at ha
  obtain ⟨u, hu, hut⟩ := UdpRx.term_emit ha ht
  have hT : 2 ≤ (Ipv4Rx.totLen ws).toNat := by
    by_contra hT
    have hopen := Ipv4Rx.term_emit_short (by omega) h3 hlen l u hu
    rw [hut] at hopen
    cases hopen
  rw [Ipv4Rx.emit_beats fun _ => hT] at ha hu
  have hlong : 5 ≤ (Ipv4Rx.passed (ipParams q) hc ws).length := by
    by_contra hshort
    rw [UdpRx.emit_short (by omega)] at ha
    exact absurd ha List.not_mem_nil
  have hfil : Ipv4Rx.filtered (ipParams q) (Ipv4Rx.header ws) = false := by
    rw [Bool.eq_false_iff]
    intro hfil
    rw [passed_filtered hfil] at hu
    exact absurd hu List.not_mem_nil
  have hcor : Ipv4Rx.corrupt hc (Ipv4Rx.header ws) = false := by
    rw [Bool.eq_false_iff]
    intro hcor
    rw [Ipv4Rx.passed, hfil, hcor, if_neg Bool.false_ne_true, if_pos rfl, List.length_mapIdx,
      List.length_take] at hlong
    omega
  rw [passed_clear hfil hcor] at ha hu hlong
  have hsize := length_datagramBeats ws
  have hfits : Ipv4Rx.packetWords ws ≤ ws.length := by
    obtain ⟨j, hj, rfl⟩ := List.mem_mapIdx.1 hu
    have hend := of_decide_eq_true hut
    rw [Ipv4Rx.length_payloadWords] at hj
    omega
  have hpay : Ipv4Rx.headWords ws + 5 ≤ Ipv4Rx.packetWords ws := by omega
  refine ⟨hT, hfil, hcor, ?_, hpay, hfits⟩
  obtain ⟨_, hemit⟩ := datagramBeats_run (p := q) hpay hfits
  rw [Bool.eq_false_iff]
  intro hport
  rw [hemit, hport] at ha
  exact absurd ha List.not_mem_nil

theorem termLen_of_totLen (h : (Ipv4Rx.totLen ws).toNat = 2 * m + 8 + n) :
    Ipv4Rx.termLen ws = if n % 2 = 0 then 2 else 1 := by
  have hpar : (2 * m + 8 + n) % 2 = n % 2 := by omega
  rw [Ipv4Rx.termLen, h, hpar]

theorem length_delivery (h : Passes q hc ws) :
    (delivery ws).length = Ipv4Rx.packetWords ws - Ipv4Rx.headWords ws - 4 := by
  have hfits := h.fits
  rw [delivery, List.length_mapIdx, List.length_drop, Ipv4Rx.length_payloadWords]
  omega

theorem delivers_of_totLen {bs : List Byte} (hle : bs.length ≤ rest.length)
    (hws : ws.drop (Ipv4Rx.headWords ws + 4) = pack x rest) (hpos : 0 < bs.length)
    (hT : (Ipv4Rx.totLen ws).toNat = 2 * Ipv4Rx.headWords ws + 8 + bs.length) :
    Delivers (delivery ws) (rest.take bs.length) := by
  have htake : (rest.take bs.length).length = bs.length := List.length_take_of_le hle
  have hM : Ipv4Rx.packetWords ws =
      max (Ipv4Rx.headWords ws + 1) (((Ipv4Rx.totLen ws).toNat + 1) / 2) := rfl
  have hN : Ipv4Rx.packetWords ws = Ipv4Rx.headWords ws + 4 + (bs.length + 1) / 2 := by omega
  have hpack : (Ipv4Rx.payloadWords ws).drop 4 =
      (pack x (rest.take bs.length ++ rest.drop bs.length)).take ((bs.length + 1) / 2) := by
    rw [List.take_append_drop, Ipv4Rx.payloadWords, List.drop_drop, List.drop_take, hws, hN,
      Nat.add_sub_cancel_left]
  have hlen := termLen_of_totLen hT
  exact delivers_pack (by rwa [htake]) (by rw [htake]; exact hlen) (by rwa [htake])

theorem Delivers.totLen (hd : Delivers (delivery ws) bs) (h : Passes q hc ws) :
    (Ipv4Rx.totLen ws).toNat = 2 * Ipv4Rx.headWords ws + 8 + bs.length := by
  have hpay := h.payload
  have hM : Ipv4Rx.packetWords ws =
      max (Ipv4Rx.headWords ws + 1) (((Ipv4Rx.totLen ws).toNat + 1) / 2) := rfl
  have hsize := length_delivery h
  have hcount := hd.length
  obtain ⟨a, ha⟩ := List.exists_mem_of_length_pos (by omega : 0 < (delivery ws).length)
  have hlast := hd.termLen a ha
  obtain ⟨j, hj, rfl⟩ := List.mem_mapIdx.1 ha
  have hpar : (Ipv4Rx.totLen ws).toNat % 2 = bs.length % 2 := by
    have h12 : (1 : BitVec 2) ≠ 2 := by decide
    simp only [Ipv4Rx.termLen] at hlast
    split at hlast <;> split at hlast
    · omega
    · exact absurd hlast.symm h12
    · exact absurd hlast h12
    · omega
  omega

theorem delivers_delivery (h : Passes q hc ws) (hne : bs ≠ []) (hle : bs.length ≤ rest.length)
    (hws : ws.drop (Ipv4Rx.headWords ws + 4) = pack x rest) :
    Delivers (delivery ws) bs ↔
      (Ipv4Rx.totLen ws).toNat = 2 * Ipv4Rx.headWords ws + 8 + bs.length ∧
        rest.take bs.length = bs := by
  have hpos := List.length_pos_of_ne_nil hne
  constructor
  · intro hd
    have hT := hd.totLen h
    exact ⟨hT, (delivers_of_totLen hle hws hpos hT).bytes.symm.trans hd.bytes⟩
  · rintro ⟨hT, hbs⟩
    have hdel := delivers_of_totLen hle hws hpos hT
    rwa [hbs] at hdel

end EthRx

namespace EthTx

variable {p : Params} {maskO : BitVec 2 → BitVec 2}

theorem pack_wireBytes (x : Byte) (ws : List Word) (bs : List Byte) :
    pack x (wireBytes ws ++ bs) = ws ++ pack x bs := by
  induction ws with
  | nil => rfl
  | cons w ws ih =>
    change lanes (lane0 w) (lane1 w) :: pack x (wireBytes ws ++ bs) = w :: (ws ++ pack x bs)
    rw [lanes_lane, ih]

theorem extractLsb'_headInit_ip (i : In) (h : a + 16 ≤ 160) :
    (headInit p i).extractLsb' (64 + a) 16 = (ipHead p i).extractLsb' a 16 := by
  have hN := headN_cases p
  rw [headInit, BitVec.extractLsb'_setWidth_of_le (by omega),
    BitVec.extractLsb'_append_eq_of_le (by omega),
    BitVec.extractLsb'_append_eq_of_add_le (by omega), Nat.add_sub_cancel_left]

theorem extractLsb'_headInit_mac (i : In) (h : a + 16 ≤ 160) :
    (headInit p i).extractLsb' (224 + a) 16 =
      (MacHeadTx.lsbHead (macParams p)).extractLsb' a 16 := by
  have hN := headN_cases p
  have hN' : 20 ≤ MacHeadTx.headN (macParams p) := by
    rw [MacHeadTx.headN]
    omega
  have h160 : 224 + a - 64 - 160 = a := by omega
  rw [headInit, BitVec.extractLsb'_setWidth_of_le (by omega),
    BitVec.extractLsb'_append_eq_of_le (by omega), BitVec.extractLsb'_append_eq_of_le (by omega),
    h160, macHead, MacHeadTx.headO]
  split <;>
    rw [BitVec.extractLsb'_setWidth_of_le (by omega),
      BitVec.extractLsb'_append_eq_of_add_le (by omega)]

theorem extractLsb'_ipHead_src (i : In) (h : a + 16 ≤ 32) :
    (ipHead p i).extractLsb' (96 + a) 16 = p.ipSrcAddr.extractLsb' a 16 := by
  have hidx : 96 + a - 4 - 4 - 6 - 2 - 16 - 16 - 3 - 13 - 8 - 8 - 16 = a := by omega
  rw [ipHead, Ipv4HeadTx.headO]
  repeat rw [BitVec.extractLsb'_append_eq_of_le (by omega)]
  rw [BitVec.extractLsb'_append_eq_of_add_le (by omega), hidx]
  rfl

theorem extractLsb'_ipHead_dst (i : In) (h : a + 16 ≤ 32) :
    (ipHead p i).extractLsb' (128 + a) 16 = p.ipDstAddr.extractLsb' a 16 := by
  have hidx : 128 + a - 4 - 4 - 6 - 2 - 16 - 16 - 3 - 13 - 8 - 8 - 16 - 32 = a := by omega
  rw [ipHead, Ipv4HeadTx.headO]
  repeat rw [BitVec.extractLsb'_append_eq_of_le (by omega)]
  rw [hidx]
  rfl

theorem drop_headWords (i : In) (rest : List Word) : ∃ ws,
    (headWords (headInit p i) ++ rest).drop 10 =
      p.ipSrcAddr.extractLsb' 0 16 :: p.ipSrcAddr.extractLsb' 16 16 ::
        p.ipDstAddr.extractLsb' 0 16 :: p.ipDstAddr.extractLsb' 16 16 :: 0xaaab :: ws := by
  have hN := headN_cases p
  have hget (k : Nat) (hk : 2 * k < headN p) := getElem?_headWords (headInit p i) hk
  have hcons (k : Nat) (hk : 2 * k < headN p) : (headWords (headInit p i)).drop k =
      (headInit p i).extractLsb' (16 * k) 16 :: (headWords (headInit p i)).drop (k + 1) := by
    obtain ⟨hlt, he⟩ := List.getElem?_eq_some_iff.1 (hget k hk)
    rw [List.drop_eq_getElem_cons hlt, he]
  have h10 : (headInit p i).extractLsb' (16 * 10) 16 = p.ipSrcAddr.extractLsb' 0 16 :=
    (extractLsb'_headInit_ip (a := 96) i (by decide)).trans
      (extractLsb'_ipHead_src (a := 0) i (by decide))
  have h11 : (headInit p i).extractLsb' (16 * 11) 16 = p.ipSrcAddr.extractLsb' 16 16 :=
    (extractLsb'_headInit_ip (a := 112) i (by decide)).trans
      (extractLsb'_ipHead_src (a := 16) i (by decide))
  have h12 : (headInit p i).extractLsb' (16 * 12) 16 = p.ipDstAddr.extractLsb' 0 16 :=
    (extractLsb'_headInit_ip (a := 128) i (by decide)).trans
      (extractLsb'_ipHead_dst (a := 0) i (by decide))
  have h13 : (headInit p i).extractLsb' (16 * 13) 16 = p.ipDstAddr.extractLsb' 16 16 :=
    (extractLsb'_headInit_ip (a := 144) i (by decide)).trans
      (extractLsb'_ipHead_dst (a := 16) i (by decide))
  have h14 : (headInit p i).extractLsb' (16 * 14) 16 = 0xaaab := by
    apply (extractLsb'_headInit_mac (a := 0) i (by decide)).trans
    rw [MacHeadTx.lsbHead, BitVec.extractLsb'_append_eq_of_add_le (by decide)]
    rfl
  have h10le : 10 ≤ (headWords (headInit p i)).length := by
    rw [length_headWords]
    omega
  refine ⟨(headWords (headInit p i)).drop 15 ++ rest, ?_⟩
  rw [List.drop_append_of_le_length h10le, hcons 10 (by omega), hcons 11 (by omega),
    hcons 12 (by omega), hcons 13 (by omega), hcons 14 (by omega), h10, h11, h12, h13, h14]
  rfl

end EthTx

namespace EthRx

theorem filtered_pair (p : Ipv4Rx.Params) (a b : Word) :
    Ipv4Rx.filtered p [a, b] = (a.extractLsb' 4 4 != Ipv4Rx.version) := by
  simp [Ipv4Rx.filtered]

theorem corrupt_pair (hc : BitVec 16) (a b : Word) : Ipv4Rx.corrupt hc [a, b] =
    (~~~(OnesComplement.sum [swapLanes a, swapLanes b]) != hc) := by
  have hsum : (Ipv4Rx.csAcc [a, b]).total = OnesComplement.sum [swapLanes a, swapLanes b] :=
    OnesComplement.Acc.total_foldl _
  rw [Ipv4Rx.corrupt, hsum]
  rfl

section

variable {rest : List Word} (hws : ws = a :: b :: c :: 0xaaab :: rest)

include hws

theorem headWords_short : Ipv4Rx.headWords ws = max 2 (2 * (a.extractLsb' 0 4).toNat) := by
  rw [hws]
  rfl

theorem totLen_short : Ipv4Rx.totLen ws = swapLanes b := by
  rw [hws]
  rfl

theorem packetWords_short : Ipv4Rx.packetWords ws =
    max (Ipv4Rx.headWords ws + 1) (((swapLanes b).toNat + 1) / 2) := by
  rw [Ipv4Rx.packetWords, totLen_short hws]

theorem header_short (h2 : Ipv4Rx.headWords ws = 2) : Ipv4Rx.header ws = [a, b] := by
  rw [Ipv4Rx.header, h2, hws]
  rfl

theorem wrongPort_short (h2 : Ipv4Rx.headWords ws = 2) :
    wrongPort q ws = (swapLanes c != q.srcPort) := by
  have hNM := Ipv4Rx.headWords_lt_packetWords ws
  have hc : (Ipv4Rx.payloadWords ws).head? = some c := by
    rw [Ipv4Rx.payloadWords, h2, List.head?_drop, List.getElem?_take_of_lt (by omega), hws]
    rfl
  rw [wrongPort, hc]
  rfl

theorem headWords_eq_two
    (hfil : Ipv4Rx.filtered (ipParams q) (Ipv4Rx.header ws) = false) : Ipv4Rx.headWords ws = 2 := by
  have hN := headWords_short hws
  by_contra hne
  have h3 : (Ipv4Rx.header ws)[3]? = some 0xaaab := by
    rw [Ipv4Rx.header, List.getElem?_take_of_lt (by omega), hws]
    rfl
  simp [Ipv4Rx.filtered, h3] at hfil
  exact absurd hfil.1.1.1.2 (by decide)

theorem passes_iff :
    Passes q hc ws ↔ a.extractLsb' 4 4 = Ipv4Rx.version ∧ (a.extractLsb' 0 4).toNat ≤ 1 ∧
      ~~~(OnesComplement.sum [swapLanes a, swapLanes b]) = hc ∧ swapLanes c = q.srcPort ∧
        13 ≤ (swapLanes b).toNat ∧ ((swapLanes b).toNat + 1) / 2 ≤ ws.length := by
  have hN := headWords_short hws
  have hM := packetWords_short hws
  constructor
  · intro h
    have h2 := headWords_eq_two hws h.filters
    have hfil := h.filters
    have hcor := h.checksum
    have hpt := h.port
    have hpay := h.payload
    have hfits := h.fits
    rw [header_short hws h2, filtered_pair] at hfil
    rw [header_short hws h2, corrupt_pair] at hcor
    rw [wrongPort_short hws h2] at hpt
    exact ⟨by simpa using hfil, by omega, by simpa using hcor, by simpa using hpt, by omega,
      by omega⟩
  · rintro ⟨hversion, hihl, hsum, hpt, hT, hfits⟩
    have h2 : Ipv4Rx.headWords ws = 2 := by omega
    refine ⟨?_, ?_, ?_, ?_, by omega, by omega⟩
    · rw [totLen_short hws]
      omega
    · rw [header_short hws h2, filtered_pair]
      simpa using hversion
    · rw [header_short hws h2, corrupt_pair]
      simpa using hsum
    · rw [wrongPort_short hws h2]
      simpa using hpt

theorem delivers_packet_iff (hlong : ws.length ≤ 20000) (hne : bs ≠ [])
    (hle : bs.length ≤ bytes.length) (hpay : ws.drop 6 = pack x bytes) :
    Delivers ((stack q).emit (⟨.idle, tl, hc⟩, .idle) (Ipv4Rx.beats ws l)) bs ↔
      a.extractLsb' 4 4 = Ipv4Rx.version ∧ (a.extractLsb' 0 4).toNat ≤ 1 ∧
        ~~~(OnesComplement.sum [swapLanes a, swapLanes b]) = hc ∧ swapLanes c = q.srcPort ∧
          (swapLanes b).toNat = bs.length + 12 ∧ bytes.take bs.length = bs := by
  have hpos := List.length_pos_of_ne_nil hne
  have hN := headWords_short hws
  have htot := totLen_short hws
  have hcount : ws.length = (bytes.length + 1) / 2 + 6 := by
    have hdrop := congrArg List.length hpay
    rw [List.length_drop, length_pack] at hdrop
    omega
  have hpassed (hpass : Passes q hc ws) (h2 : Ipv4Rx.headWords ws = 2) :
      Delivers ((stack q).emit (⟨.idle, tl, hc⟩, .idle) (Ipv4Rx.beats ws l)) bs ↔
        (swapLanes b).toNat = 2 * 2 + 8 + bs.length ∧ bytes.take bs.length = bs := by
    rw [hpass.emit, delivers_delivery hpass hne hle (by rw [h2]; exact hpay), htot, h2]
  constructor
  · intro h
    obtain ⟨u, hu, hut⟩ := h.term_mem hne
    have hpass := passes_of_term (by omega) hlong hu hut
    obtain ⟨hversion, hihl, hsum, hport, _, _⟩ := (passes_iff hws).1 hpass
    obtain ⟨hT, hbs⟩ := (hpassed hpass (by omega)).1 h
    exact ⟨hversion, hihl, hsum, hport, by omega, hbs⟩
  · rintro ⟨hversion, hihl, hsum, hport, hT, hbs⟩
    have hpass : Passes q hc ws :=
      (passes_iff hws).2 ⟨hversion, hihl, hsum, hport, by omega, by omega⟩
    exact (hpassed hpass (by omega)).2 ⟨by omega, hbs⟩

end

end EthRx

namespace EthTx

variable {p : Params} {maskO : BitVec 2 → BitVec 2}

/-- A receiver for the ports and addresses that `p` writes. -/
def rxParams (p : Params) (matchSrc matchDst : Bool) : EthRx.Params :=
  ⟨true, matchSrc, matchDst, p.ipSrcAddr, p.ipDstAddr, p.srcPort, p.dstPort⟩

namespace Transmission

/-- The headers leave in the order UDP, IPv4, MAC, so that a receiver finds the IPv4 addresses where
it looks for the type field and for the start of an IPv4 packet. They hold what it accepts there,
the packet is as long as the payload, and the payload repeats the bytes from offset 34 on. -/
structure Overlaid (t : Transmission p) (headCs : BitVec 16) : Prop where
  type : p.ipSrcAddr.extractLsb' 0 16 = MacRx.ipv4
  version : p.ipSrcAddr.extractLsb' 20 4 = Ipv4Rx.version
  ihl : (p.ipSrcAddr.extractLsb' 16 4).toNat ≤ 1
  checksum : ~~~(OnesComplement.sum [swapLanes (p.ipSrcAddr.extractLsb' 16 16),
    swapLanes (p.ipDstAddr.extractLsb' 0 16)]) = headCs
  port : swapLanes (p.ipDstAddr.extractLsb' 16 16) = p.srcPort
  totLen : (swapLanes (p.ipDstAddr.extractLsb' 0 16)).toNat = t.payload.length + 12
  payload : ((wireBytes (headWords t.init)).drop 34 ++ t.payload).take t.payload.length = t.payload

theorem payload_ne (t : Transmission p) : t.payload ≠ [] := by
  have hlast : wordBytes t.last.appDataI t.last.appLenI ≠ [] := by
    rcases t.last_len with h | h <;> rw [h] <;> exact List.cons_ne_nil _ _
  rw [payload]
  exact List.append_ne_nil_of_right_ne_nil _ hlast

theorem words_tagged (t : Transmission p) (htype : p.ipSrcAddr.extractLsb' 0 16 ≠ MacRx.ipv4)
    (hi : MacRx.isIpv4 (EthRx.macParams q) f = true)
    (hx : f.map MacRx.Beat.data = headWords t.init ++ rest) :
    EthRx.words q f = (headWords t.init ++ rest).drop 13 ∧
      ∃ ws, EthRx.words q f = p.ipDstAddr.extractLsb' 16 16 :: 0xaaab :: ws := by
  obtain ⟨ws, hdrop⟩ := drop_headWords (p := p) t.request rest
  have hx10 : (f.map MacRx.Beat.data).drop 10 = _ := (congrArg (List.drop 10) hx).trans hdrop
  have hl : MacRx.headLen (EthRx.macParams q) f = 13 := by
    rcases MacRx.headLen_cases (EthRx.macParams q) f with hl | hl
    · have h10 : f[10]?.map MacRx.Beat.data = some (p.ipSrcAddr.extractLsb' 0 16) := by
        rw [← List.getElem?_map, ← List.head?_drop, hx10]
        rfl
      rw [MacRx.isIpv4, hl, h10] at hi
      exact absurd (Option.some.inj (of_decide_eq_true hi)) htype
    · exact hl
  have hwords : EthRx.words q f = (f.map MacRx.Beat.data).drop 13 := by
    rw [EthRx.words, MacRx.payload, List.map_drop, hl]
  refine ⟨hwords.trans (congrArg (List.drop 13) hx), ws, ?_⟩
  have hidx : 13 = 10 + 3 := rfl
  rw [hwords, hidx, ← List.drop_drop, hx10]
  rfl

theorem not_delivers (t : Transmission p) (hsize : t.payload.length ≤ 1472)
    (htail : tail.length ≤ 100) (htype : p.ipSrcAddr.extractLsb' 0 16 ≠ MacRx.ipv4)
    (hwell : MacRx.WellFormed (EthRx.macParams q) f)
    (hx : f.map MacRx.Beat.data = headWords t.init ++ pack x (t.payload ++ tail)) :
    ¬ EthRx.Delivers ((EthRx.stack q).emit (⟨.idle, tl, hc⟩, .idle)
      (MacRx.handed (EthRx.macParams q) f)) t.payload := by
  intro h
  have hN := headN_cases p
  obtain ⟨u, hu, hut⟩ := h.term_mem t.payload_ne
  have hi : MacRx.isIpv4 (EthRx.macParams q) f = true := by
    cases hi : MacRx.isIpv4 (EthRx.macParams q) f with
    | true => rfl
    | false =>
      rw [MacRx.handed_other hi] at hu
      exact absurd hu List.not_mem_nil
  obtain ⟨hdrop, ws, hwords⟩ := t.words_tagged htype hi hx
  have hcount : (EthRx.words q f).length =
      headN p / 2 + (t.payload.length + tail.length + 1) / 2 - 13 := by
    rw [hdrop, List.length_drop, List.length_append, length_headWords, length_pack,
      List.length_append]
  rw [EthRx.handed_words hwell hi] at hu
  have hfits := (EthRx.passes_of_term (by omega) (by omega) hu hut).fits
  have htot : Ipv4Rx.totLen (EthRx.words q f) = 0xabaa := by
    rw [hwords]
    change swapLanes 0xaaab = 0xabaa
    decide
  have hM : ((0xabaa : BitVec 16).toNat + 1) / 2 ≤ Ipv4Rx.packetWords (EthRx.words q f) := by
    rw [Ipv4Rx.packetWords, htot]
    exact Nat.le_max_right _ _
  change 21973 ≤ _ at hM
  omega

theorem wellFormed_headWords (t : Transmission p) (q : EthRx.Params)
    (hf : MacRx.Carries f (wireBytes (headWords t.init) ++ bs)) :
    MacRx.WellFormed (EthRx.macParams q) f := by
  have hN := headN_cases p
  apply hf.wellFormed
  rw [List.length_append, length_wireBytes, length_headWords]
  rcases MacRx.headLen_cases (EthRx.macParams q) f with h | h <;> omega

theorem words_untagged (t : Transmission p) (q : EthRx.Params)
    (htype : p.ipSrcAddr.extractLsb' 0 16 = MacRx.ipv4)
    (hx : f.map MacRx.Beat.data = headWords t.init ++ rest) :
    MacRx.isIpv4 (EthRx.macParams q) f = true ∧
      EthRx.words q f = (headWords t.init ++ rest).drop 11 ∧
        ∃ ws, EthRx.words q f = p.ipSrcAddr.extractLsb' 16 16 ::
          p.ipDstAddr.extractLsb' 0 16 :: p.ipDstAddr.extractLsb' 16 16 :: 0xaaab :: ws := by
  have hN := headN_cases p
  obtain ⟨ws, hdrop⟩ := drop_headWords (p := p) t.request rest
  have hx10 : (f.map MacRx.Beat.data).drop 10 = _ := (congrArg (List.drop 10) hx).trans hdrop
  have hmac : ((f.map MacRx.Beat.data).take 10).length = 10 := by
    rw [hx, List.length_take, List.length_append, length_headWords]
    omega
  have hsplit := (List.take_append_drop 10 (f.map MacRx.Beat.data)).symm
  rw [hx10, htype] at hsplit
  obtain ⟨hl, hi, hwords⟩ := MacRx.layout_untagged (p := EthRx.macParams q) hmac hsplit
  refine ⟨hi, ?_, ws, hwords⟩
  rw [EthRx.words, MacRx.payload, List.map_drop, hl, hx]

theorem delivers_frame_iff (t : Transmission p) (hsize : t.payload.length ≤ 1472)
    (htail : tail.length ≤ 100)
    (hf : MacRx.Carries f (wireBytes (headWords t.init) ++ (t.payload ++ tail))) :
    EthRx.Delivers ((EthRx.stack (rxParams p matchSrc matchDst)).emit (⟨.idle, tl, hc⟩, .idle)
      (MacRx.handed (EthRx.macParams (rxParams p matchSrc matchDst)) f)) t.payload ↔
        t.Overlaid hc := by
  have hN := headN_cases p
  have hhw : (headWords t.init).length = headN p / 2 := length_headWords t.init
  obtain ⟨x, hx⟩ := hf.data
  rw [pack_wireBytes] at hx
  have hwell := t.wellFormed_headWords (rxParams p matchSrc matchDst) hf
  by_cases htype : p.ipSrcAddr.extractLsb' 0 16 = MacRx.ipv4
  · obtain ⟨hi, hdrop, ws, hwords⟩ :=
      t.words_untagged (rxParams p matchSrc matchDst) htype hx
    have hpay : (EthRx.words (rxParams p matchSrc matchDst) f).drop 6 =
        pack x ((wireBytes (headWords t.init)).drop 34 ++ (t.payload ++ tail)) := by
      rw [hdrop, List.drop_drop, List.drop_append_of_le_length (by omega),
        drop_wireBytes (headWords t.init) 17, pack_wireBytes]
    have hlong : (EthRx.words (rxParams p matchSrc matchDst) f).length ≤ 20000 := by
      rw [hdrop, List.length_drop, List.length_append, hhw, length_pack, List.length_append]
      omega
    have hle : t.payload.length ≤
        ((wireBytes (headWords t.init)).drop 34 ++ (t.payload ++ tail)).length := by
      rw [List.length_append, List.length_append]
      omega
    have htake : ((wireBytes (headWords t.init)).drop 34 ++ (t.payload ++ tail)).take
        t.payload.length =
          ((wireBytes (headWords t.init)).drop 34 ++ t.payload).take t.payload.length := by
      rw [← List.append_assoc, List.take_append_of_le_length]
      rw [List.length_append]
      omega
    have hversion : (p.ipSrcAddr.extractLsb' 16 16).extractLsb' 4 4 =
        p.ipSrcAddr.extractLsb' 20 4 := extractLsb'_field p.ipSrcAddr (by decide)
    have hihl : (p.ipSrcAddr.extractLsb' 16 16).extractLsb' 0 4 = p.ipSrcAddr.extractLsb' 16 4 :=
      extractLsb'_field p.ipSrcAddr (by decide)
    rw [EthRx.handed_words hwell hi,
      EthRx.delivers_packet_iff hwords hlong t.payload_ne hle hpay, hversion, hihl, htake]
    constructor
    · rintro ⟨hv, hh, hs, hp, hT, hbytes⟩
      exact ⟨htype, hv, hh, hs, hp, hT, hbytes⟩
    · rintro ⟨_, hv, hh, hs, hp, hT, hbytes⟩
      exact ⟨hv, hh, hs, hp, hT, hbytes⟩
  · exact iff_of_false (t.not_delivers hsize htail htype hwell hx) fun h => htype h.type

theorem loop_iff (t : Transmission p) (hmask : LenToMask maskO) (h : Idle s)
    (hsize : t.payload.length ≤ 1472) (hn : headN p + t.payload.length ≤ n)
    (hsim : EthRx.Sim (rxParams p matchSrc matchDst) u (.invalid, (⟨.idle, tl, hc⟩, .idle)))
    (r : Sync.Reception EthRx.beat MacRx.Idle fun f => MacRx.Carries f
      ((wireBytes (delivered (machine p maskO) port s t.cycles)).take n)) :
    EthRx.Delivers (delivered (EthRx.machine (rxParams p matchSrc matchDst)) EthRx.port u r.cycles)
      t.payload ↔ t.Overlaid hc := by
  obtain ⟨fill, hfill, hwire⟩ := t.wire_eq hmask h
  obtain ⟨_, _, _, _, _, _, _, hexcess⟩ := t.announced
  have hlen := t.length_dataBytes
  obtain ⟨tail, htail, hbytes⟩ : ∃ tail : List Byte, tail.length ≤ 100 ∧
      (wireBytes (delivered (machine p maskO) port s t.cycles)).take n =
        wireBytes (headWords t.init) ++ (t.payload ++ tail) := by
    refine ⟨(crcBytes t.reg ++ fill).take (n - t.dataBytes.length), ?_, ?_⟩
    · have h4 : (crcBytes t.reg).length = 4 := rfl
      have hle := List.length_take_le (n - t.dataBytes.length) (crcBytes t.reg ++ fill)
      rw [List.length_take, List.length_append]
      omega
    · have htake : t.dataBytes.take n = t.dataBytes := List.take_of_length_le (by omega)
      rw [hwire, List.take_append, htake, dataBytes, List.append_assoc]
  have hframe : MacRx.Carries r.frame (wireBytes (headWords t.init) ++ (t.payload ++ tail)) := by
    rw [← hbytes]
    exact r.whole
  have hwell : ∀ f, MacRx.Carries f
      ((wireBytes (delivered (machine p maskO) port s t.cycles)).take n) →
        MacRx.WellFormed (EthRx.macParams (rxParams p matchSrc matchDst)) f := by
    intro f hf
    rw [hbytes] at hf
    exact t.wellFormed_headWords _ hf
  have hdel := EthRx.delivered_reception hsim [] (r.weaken hwell)
  have hdel : delivered (EthRx.machine (rxParams p matchSrc matchDst)) EthRx.port u r.cycles =
      (EthRx.stack (rxParams p matchSrc matchDst)).emit (⟨.idle, tl, hc⟩, .idle)
        (MacRx.handed (EthRx.macParams (rxParams p matchSrc matchDst)) r.frame) := hdel
  rw [hdel]
  exact t.delivers_frame_iff hsize htail hframe

end Transmission

end EthTx

theorem EthRx.free_sim (q : EthRx.Params) (s₀ : EthRx.State) (i₀ : EthRx.In)
    (seen : List (EthRx.ConformingReception q)) :
    let u := (EthRx.machine q).run (EthRx.reset q s₀ i₀) (Reception.allCycles seen)
    ∃ tl, EthRx.Sim q u (.invalid, (⟨.idle, tl, u.mIpv4Rx.headChecksumQ⟩, .idle)) := by
  intro u
  have hc : ∀ f, EthRx.Conforming q f → MacRx.WellFormed (EthRx.macParams q) f :=
    fun f hf => hf.consistent.wellFormed
  have hsim := EthRx.after_frames (EthRx.sim_reset q s₀ i₀) (seen.map (Reception.weaken hc))
  have hgate := EthRx.gate_run (fun f hf => (EthRx.frames_conforming seen f hf).consistent)
    (EthRx.gateRel_layers (EthRx.reset q s₀ i₀))
  rw [EthRx.gate_conforming (EthRx.frames_conforming seen)] at hgate
  rw [Reception.allCycles_weaken, List.map_map] at hsim
  have hsim : EthRx.Sim q u (.invalid, EthRx.layersAfter q (EthRx.layers (EthRx.reset q s₀ i₀))
      (seen.map Reception.frame)) := hsim
  obtain ⟨hrd, hup⟩ := hgate
  revert hsim hrd hup
  obtain ⟨rd, up⟩ := EthRx.layersAfter q (EthRx.layers (EthRx.reset q s₀ i₀))
    (seen.map Reception.frame)
  rintro hsim hrd hup
  have hcs := hsim.ip.headCs_idle hrd
  obtain ⟨ph, tl, hcs'⟩ := rd
  obtain rfl : ph = .idle := hrd
  obtain rfl : up = .idle := hup
  obtain rfl : u.mIpv4Rx.headChecksumQ = hcs' := hcs
  exact ⟨tl, hsim⟩

/-- After any packets sent and any conforming frames received, a packet that is looped back delivers
its payload exactly when its headers and its payload overlay those of a datagram. -/
theorem EthTx.loops_back_iff (p : EthTx.Params) (maskO : BitVec 2 → BitVec 2)
    (hmask : EthTx.LenToMask maskO) (matchSrc matchDst : Bool) (s₀ : EthTx.State p) (i₀ : EthTx.In)
    (past : List (EthTx.Transmission p)) (t : EthTx.Transmission p)
    (hsize : t.payload.length ≤ 1472) (n : Nat) (hn : EthTx.headN p + t.payload.length + 4 ≤ n) :
    let q := EthTx.rxParams p matchSrc matchDst
    let s := (EthTx.machine p maskO).run (EthTx.reset s₀ i₀) (EthTx.Transmission.allCycles past)
    let sent := EthTx.wireBytes (delivered (EthTx.machine p maskO) EthTx.port s t.cycles)
    ∀ (u₀ : EthRx.State) (j₀ : EthRx.In) (seen : List (EthRx.ConformingReception q))
      (r : Sync.Reception EthRx.beat MacRx.Idle (MacRx.Carries · (sent.take n))),
      let u := (EthRx.machine q).run (EthRx.reset q u₀ j₀) (Reception.allCycles seen)
      EthRx.Delivers (delivered (EthRx.machine q) EthRx.port u r.cycles) t.payload ↔
        t.Overlaid u.mIpv4Rx.headChecksumQ := by
  intro q s sent u₀ j₀ seen r u
  obtain ⟨tl, hsim⟩ := EthRx.free_sim q u₀ j₀ seen
  exact t.loop_iff hmask (EthTx.Transmission.idle_after hmask (EthTx.idle_reset s₀ i₀)) hsize
    (by omega) hsim r

namespace EthTx

def Transmission.looped (t : Transmission p) (maskO : BitVec 2 → BitVec 2) (s : State p) (n : Nat) :
    Sync.Reception EthRx.beat MacRx.Idle (MacRx.Carries ·
      ((wireBytes (delivered (machine p maskO) port s t.cycles)).take n)) :=
  .ofFrame EthRx.feed EthRx.beat_feed _ (MacRx.carries_framed 0 _)

/-- Addresses that hold the type of IPv4, a header of two words and the source port. -/
def overlaidParams : Params :=
  { sampleParams with ipSrcAddr := 0x00400008, ipDstAddr := 0xfa461000 }

def overlaidRx : EthRx.State :=
  { mMacRx := default, mIpv4Rx := { (default : Ipv4Rx.State) with headChecksumQ := 0xbfef },
    mUdpRx := default }

theorem loops_back_sample :
    EthRx.Delivers (delivered (EthRx.machine (rxParams overlaidParams false false)) EthRx.port
      (EthRx.reset (rxParams overlaidParams false false) overlaidRx default)
        ((sample overlaidParams rfl 0xaaaa 0xd4f2).looped lenToMask
          (reset default default) 62).cycles)
      (sample overlaidParams rfl 0xaaaa 0xd4f2).payload :=
  (loops_back_iff overlaidParams lenToMask lenToMask_spec false false default default []
    (sample overlaidParams rfl 0xaaaa 0xd4f2) (by decide) 62 (by decide) overlaidRx default []
    ((sample overlaidParams rfl 0xaaaa 0xd4f2).looped lenToMask (reset default default) 62)).2
    ⟨by decide, by decide, by decide, by decide, by decide, by decide, by decide +kernel⟩

/-- Looped back, the payload `11 22 33 44` is not delivered. -/
theorem loops_back_fails :
    ¬ EthRx.Delivers (delivered (EthRx.machine (rxParams sampleParams false false)) EthRx.port
      (EthRx.reset (rxParams sampleParams false false) default default)
        ((sample sampleParams rfl 0x2211 0x4433).looped lenToMask
          (reset default default) 62).cycles)
      (sample sampleParams rfl 0x2211 0x4433).payload := by
  have hsim := EthRx.sim_reset (rxParams sampleParams false false) default default
  rw [(sample sampleParams rfl 0x2211 0x4433).loop_iff lenToMask_spec (idle_reset default default)
    (by decide) (by decide) hsim]
  intro h
  exact absurd h.type (by decide)

end EthTx

end LowLatencyEthernet
