import LowLatencyEthernet.Tb.EthNodes
import LowLatencyEthernet.Tb.EthTb
import LowLatencyEthernet.Tb.InjectedError

namespace LowLatencyEthernet
set_option autoImplicit true

open Sync

namespace Tb

def MacIntf.wire (mac : MacIntf) : MacRx.Beat :=
  ⟨mac.cancel, mac.start, mac.data, mac.term, mac.len.setWidth 2⟩

theorem beat_tbMac (mac : MacIntf) :
    EthRx.beat (EthTb.tbMac mac) = if mac.valid then some mac.wire else none := by
  have hstart : (EthTb.getMacStart mac)[0] = mac.start := by
    unfold EthTb.getMacStart
    cases mac.start <;> rfl
  cases hv : mac.valid <;>
    simp [EthRx.beat, MacRx.beat, EthRx.macIn, EthTb.tbMac, MacIntf.wire, hv, hstart]

theorem getElem?_pack (bs : List Byte) (hk : k < segCount bs.length) :
    (pack 0 bs)[k]? = some (segWord (bs.drop (2 * k))) := by
  have hdrop : (pack 0 bs)[k]? = (pack 0 (bs.drop (2 * k)))[0]? := by
    rw [← pack_drop, List.getElem?_drop, Nat.add_zero]
  have hlt := seg_lt hk
  have hlen : (bs.drop (2 * k)).length = bs.length - 2 * k := List.length_drop
  rw [hdrop]
  rcases hd : bs.drop (2 * k) with _ | ⟨a, _ | ⟨b, rest⟩⟩
  · rw [hd, List.length_nil] at hlen
    omega
  · rfl
  · rfl

theorem pack_eq_map (bs : List Byte) :
    (List.range (segCount bs.length)).map (fun k => segWord (bs.drop (2 * k))) = pack 0 bs := by
  apply List.ext_getElem?
  intro k
  rw [List.getElem?_map]
  by_cases hk : k < segCount bs.length
  · rw [List.getElem?_range hk, getElem?_pack bs hk]
    rfl
  · have hge : (pack 0 bs).length ≤ k := by
      rw [length_pack]
      exact Nat.le_of_not_lt hk
    have hge' : (List.range (segCount bs.length)).length ≤ k := by
      rw [List.length_range]
      exact Nat.le_of_not_lt hk
    rw [List.getElem?_eq_none hge, List.getElem?_eq_none hge']
    rfl

/-- The beats of a packet without an error, as the receive path takes them. -/
def frameOf (pkt : List Byte) (errPos : Nat) (id : DebugId) : List MacRx.Beat :=
  (List.range (segCount pkt.length)).map fun k => (beatAt pkt false errPos id k).wire

section

variable {pkt : List Byte} {errPos : Nat} {id : DebugId}

theorem getElem?_frameOf (h : (frameOf pkt errPos id)[k]? = some b) :
    k < segCount pkt.length ∧ b = (beatAt pkt false errPos id k).wire := by
  rw [frameOf, List.getElem?_map, Option.map_eq_some_iff] at h
  obtain ⟨j, hj, rfl⟩ := h
  obtain ⟨hlt, rfl⟩ := List.getElem?_eq_some_iff.1 hj
  rw [List.length_range] at hlt
  rw [List.getElem_range]
  exact ⟨hlt, rfl⟩

theorem length_frameOf : (frameOf pkt errPos id).length = segCount pkt.length := by
  rw [frameOf, List.length_map, List.length_range]

theorem termState_ends (n : Nat) : termState n = .term1 ∨ termState n = .term2 := by
  unfold termState
  split
  · exact .inl rfl
  · exact .inr rfl

theorem stateAt_start_iff : stateAt len false errPos k = .start ↔ k = 0 := by
  by_cases h0 : k = 0
  · simp [stateAt, h0]
  · refine iff_of_false ?_ h0
    simp only [stateAt, h0, Bool.false_eq_true, false_and, and_false, ↓reduceIte]
    split
    · rcases termState_ends (segLen len k) with ht | ht <;> rw [ht] <;> decide
    · decide

theorem stateAt_term_iff (hn : 1 < segCount len) :
    (stateAt len false errPos k = .term1 ∨ stateAt len false errPos k = .term2) ↔
      k + 1 = segCount len := by
  by_cases h0 : k = 0
  · have hne : k + 1 ≠ segCount len := by omega
    exact iff_of_false (by simp [stateAt, h0]) hne
  · by_cases hl : k + 1 = segCount len
    · refine iff_of_true ?_ hl
      simp only [stateAt, h0, hl, Bool.false_eq_true, false_and, and_false, ↓reduceIte]
      exact termState_ends _
    · exact iff_of_false (by simp [stateAt, h0, hl]) hl

theorem segLen_last (h : k + 1 = segCount len) :
    (BitVec.ofNat 8 (segLen len k)).setWidth 2 = (if len % 2 = 0 then 2 else 1 : BitVec 2) := by
  have hk : k < segCount len := by omega
  have hlast := seg_last h
  rcases segLen_cases hk with hl | hl
  · have hodd : len % 2 ≠ 0 := by omega
    rw [hl, if_neg hodd]
    rfl
  · have heven : len % 2 = 0 := by omega
    rw [hl, if_pos heven]
    rfl

theorem carries_frameOf (hn : 1 < segCount pkt.length) :
    MacRx.Carries (frameOf pkt errPos id) pkt where
  start k b hb := by
    obtain ⟨-, rfl⟩ := getElem?_frameOf hb
    exact decide_eq_true_iff.trans stateAt_start_iff
  term k b hb := by
    obtain ⟨-, rfl⟩ := getElem?_frameOf hb
    rw [length_frameOf]
    exact decide_eq_true_iff.trans (stateAt_term_iff hn)
  uncancelled b hb := by
    obtain ⟨k, hk⟩ := List.mem_iff_getElem?.1 hb
    obtain ⟨-, rfl⟩ := getElem?_frameOf hk
    apply decide_eq_false
    intro herr
    exact Bool.false_ne_true (stateAt_error_iff.1 herr).2.1
  data := by
    refine ⟨0, ?_⟩
    rw [frameOf, List.map_map, ← pack_eq_map]
    rfl
  len b hb ht := by
    obtain ⟨k, hk⟩ := List.mem_iff_getElem?.1 hb
    obtain ⟨-, rfl⟩ := getElem?_frameOf hk
    exact segLen_last ((stateAt_term_iff hn).1 (decide_eq_true_iff.1 ht))

end

theorem filterMap_entries (lib : EthInit ε) {g : Gen ε} (he : g.draws.hasErr = false) :
    ∃ idles errPos, (g.entries lib).filterMap (fun mac => EthRx.beat (EthTb.tbMac mac)) =
        frameOf (packetOf lib.toEthLib g.node g.draws) errPos g.id ++ idles ∧
      ∀ b ∈ idles, MacRx.Idle b := by
  refine ⟨(idlesOf lib.toEthLib g.node g.draws).filterMap fun mac => EthRx.beat (EthTb.tbMac mac),
    g.draws.errAt (packetOf lib.toEthLib g.node g.draws).length, ?_, fun b hb => ?_⟩
  · rw [Gen.entries, List.filterMap_append, beatsOf, he, List.filterMap_map]
    congr 1
    rw [frameOf, ← List.filterMap_eq_map]
    exact List.filterMap_congr fun k _ => beat_tbMac _
  · obtain ⟨mac, hmac, hb⟩ := List.mem_filterMap.1 hb
    rw [beat_tbMac] at hb
    rcases (idlesOf_are hmac).1 with hv | herr
    · rw [hv] at hb
      cases hb
    · split at hb
      · obtain rfl := Option.some.inj hb
        rw [herr]
        rfl
      · cases hb

end Tb

namespace EthRx

/-- Of the addresses the upper halves decide, and only as they lie on the bus. -/
theorem Datagram.filtered_addr (d : Datagram p) (q : Params) (x : Byte) :
    Ipv4Rx.filtered (ipParams q) (Ipv4Rx.header (d.packetWords x)) =
      (q.matchIpSrcAddr && q.ipSrcAddr.extractLsb' 16 16 != swapLanes (d.ipSrc.extractLsb' 16 16) ||
        q.matchIpDstAddr &&
          q.ipDstAddr.extractLsb' 16 16 != swapLanes (d.ipDst.extractLsb' 16 16)) := by
  have hversion : (swapLanes ((4#4 ++ d.ihl) ++ d.tos)).extractLsb' 4 4 = Ipv4Rx.version := by
    rw [extractLsb'_lane0_high, lane0_swapLanes, lane1_append]
    exact BitVec.extractLsb'_append_eq_left
  have hprot : lane1 (swapLanes (d.ttl ++ 17#8)) = (ipParams q).protocol := by
    rw [lane1_swapLanes, lane0_append]
    rfl
  have hfrag : (swapLanes 0x4000#16).extractLsb' 5 3 = Ipv4Rx.fragFlag := by decide
  have hlen : (d.ipHeader.map swapLanes).length = 10 + d.options.length := by
    rw [List.length_map, d.length_ipHeader]
  have h0 : (d.ipHeader.map swapLanes)[0]? = some (swapLanes ((4#4 ++ d.ihl) ++ d.tos)) := rfl
  have h3 : (d.ipHeader.map swapLanes)[3]? = some (swapLanes 0x4000#16) := rfl
  have h4 : (d.ipHeader.map swapLanes)[4]? = some (swapLanes (d.ttl ++ 17#8)) := rfl
  have h6 : (d.ipHeader.map swapLanes).dropLast[6]? =
      some (swapLanes (d.ipSrc.extractLsb' 16 16)) := by
    rw [List.getElem?_dropLast, if_pos (by omega)]
    rfl
  have h8 : (d.ipHeader.map swapLanes).dropLast[8]? =
      some (swapLanes (d.ipDst.extractLsb' 16 16)) := by
    rw [List.getElem?_dropLast, if_pos (by omega)]
    rfl
  rw [d.header_eq, Ipv4Rx.filtered, h0, h3, h4, h6, h8]
  simp [hversion, hprot, hfrag, ipParams]

end EthRx

namespace EthTb

theorem verdict_default {args : Tb.EthArgs} (hargs : args = Tb.defaultArgs vtag)
    (d : EthRx.Datagram args.rxParams) (hsrc : d.ipSrc = args.srcIp) (hdst : d.ipDst = args.dstIp)
    (hf : MacRx.Carries f d.bytes) : ∃ x,
      EthRx.verdict ethRxParams f = .accepted (EthRx.delivery (d.packetWords x)) := by
  subst hargs
  obtain ⟨_, hi, x, hx⟩ := d.layout hf
  have hsrc' : d.ipSrc = 1 := hsrc
  have hdst' : d.ipDst = 0 := hdst
  have hfil := d.filtered_addr ethRxParams x
  rw [hsrc', hdst'] at hfil
  have hreach : EthRx.reachesUdp ethRxParams f = true := by
    have hx' : EthRx.words ethRxParams f = d.packetWords x := hx
    have hi' : MacRx.isIpv4 (EthRx.macParams ethRxParams) f = true := hi
    rw [EthRx.reachesUdp, hi', hx', hfil]
    decide
  have hwords : EthRx.words ethRxParams f = d.packetWords x := hx
  have hport : EthRx.wrongPort ethRxParams (d.packetWords x) = false := d.wrongPort_eq x
  refine ⟨x, ?_⟩
  rw [EthRx.verdict, EthRx.verdictOf, hreach, hwords, d.badChecksum_eq, hport]
  rfl

theorem verdict_other (d : EthRx.Datagram p) (hvlan : p.vlanTag = true)
    (hsrc : d.ipSrc.extractLsb' 16 16 ≠ 0) (hf : MacRx.Carries f d.bytes) :
    EthRx.verdict ethRxParams f = .filtered := by
  obtain ⟨_, _, x, hx⟩ := d.layout hf
  have hmac : EthRx.macParams p = EthRx.macParams ethRxParams := congrArg MacRx.Params.mk hvlan
  have hwords : EthRx.words ethRxParams f = d.packetWords x := by
    rw [← hx, EthRx.words, EthRx.words, hmac]
  have hfil := d.filtered_addr ethRxParams x
  have hne : ((0 : Word) != swapLanes (d.ipSrc.extractLsb' 16 16)) = true := by
    rw [bne_iff_ne]
    intro h
    apply hsrc
    rw [← swapLanes_swapLanes (d.ipSrc.extractLsb' 16 16), ← h]
    decide
  apply EthRx.verdictOf_filtered
  have hupper : ethRxParams.ipSrcAddr.extractLsb' 16 16 = 0 := by decide
  rw [EthRx.reachesUdp, hwords, hfil, hupper, hne]
  exact Bool.and_false _

theorem consistent (d : EthRx.Datagram p) (hvlan : p.vlanTag = true)
    (hf : MacRx.Carries f d.bytes) : EthRx.Consistent ethRxParams f := by
  have hmac : EthRx.macParams p = EthRx.macParams ethRxParams := congrArg MacRx.Params.mk hvlan
  obtain ⟨hw, hl⟩ := d.consistent hf
  refine ⟨hmac ▸ hw, ?_⟩
  rw [EthRx.words, hmac] at hl
  exact hl

end EthTb

end LowLatencyEthernet
