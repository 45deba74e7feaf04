import Mathlib.Data.List.Intervals
import LowLatencyEthernet.Tb.Segmentation

namespace LowLatencyEthernet.Tb
set_option autoImplicit true

/-- The packet a node writes: an even number of head bytes, the payload and the FCS. -/
structure EthLib.Layout (lib : EthLib ε) (node : ε) (data head foot : List Byte) : Prop where
  packet : lib.writeEthPacket (lib.updateEthPacketData node data) = head ++ data ++ foot
  head_len : lib.getHeadLen (lib.updateEthPacketData node data) = head.length
  head_even : head.length % 2 = 0
  head_fits : head.length < 2 ^ 31
  foot_len : foot.length = 4

section

variable {pkt : List Byte} {phyErr : Bool} {errPos : Nat} {id : DebugId}

theorem termState_ne_error (n : Nat) : termState n ≠ .error := by
  unfold termState
  split <;> decide

theorem stateAt_error_iff : stateAt len phyErr errPos k = .error ↔
    k + 1 < segCount len ∧ phyErr = true ∧ errPos / 2 = k := by
  rw [stateAt]
  by_cases h : k + 1 < segCount len ∧ phyErr = true ∧ errPos / 2 = k
  · rw [if_pos h]
    exact iff_of_true rfl h
  · refine iff_of_false ?_ h
    rw [if_neg h]
    split
    · decide
    split
    · exact termState_ne_error _
    · decide

theorem beatAt_cancel_iff : (beatAt pkt phyErr errPos id k).cancel = true ↔
    k + 1 < segCount pkt.length ∧ phyErr = true ∧ errPos / 2 = k := by
  rw [← stateAt_error_iff]
  exact decide_eq_true_iff

end

def beatOfByte (p : Nat) : Nat := p / dataWidthByte

theorem filter_beats (lib : EthLib ε) (tv : Tv ε) (node : ε) (d : Draws) :
    (beatsOf lib tv node d ++ idlesOf lib node d).filter (fun b => b.len ≠ 0) =
      beatsOf lib tv node d := by
  have hbeats : (beatsOf lib tv node d).filter (fun b => b.len ≠ 0) = beatsOf lib tv node d := by
    rw [List.filter_eq_self]
    intro b hb
    simpa using beatsOf_len_ne_zero hb
  have hidles : (idlesOf lib node d).filter (fun b => b.len ≠ 0) = [] := by
    rw [List.filter_eq_nil_iff]
    intro b hb
    simpa using (idlesOf_are hb).2
  rw [List.filter_append, hbeats, hidles, List.append_nil]

theorem beatsOf_cancel_iff (lib : EthLib ε) (tv : Tv ε) (node : ε) (d : Draws)
    (he : d.hasErr = true) : (∃ b ∈ (beatsOf lib tv node d)[k]?, b.cancel = true) ↔
      k = beatOfByte (d.errAt (packetOf lib node d).length) ∧
        k + 1 < segCount (packetOf lib node d).length := by
  rw [beatsOf, List.getElem?_map]
  constructor
  · rintro ⟨b, hb, hc⟩
    obtain ⟨j, hj, rfl⟩ := Option.map_eq_some_iff.1 hb
    obtain ⟨hlt, hjk⟩ := List.getElem?_eq_some_iff.1 hj
    rw [List.getElem_range] at hjk
    obtain ⟨hlast, -, hpos⟩ := beatAt_cancel_iff.1 hc
    exact ⟨hjk.trans hpos.symm, by omega⟩
  · rintro ⟨rfl, hlast⟩
    refine ⟨beatAt _ _ _ (tv.pktId + 1) _, ?_, beatAt_cancel_iff.2 ⟨hlast, he, rfl⟩⟩
    rw [List.getElem?_range (Nat.lt_of_succ_lt hlast)]
    rfl

def carriedBefore (headLen dataLen errPos j : Nat) : Bool :=
  decide (beatOfByte (headLen + min (2 * j + 2) dataLen - 1) < beatOfByte errPos)

theorem carriedBefore_eq (hhead : headLen % 2 = 0) (hj : j < segCount dataLen) :
    carriedBefore headLen dataLen errPos j = decide (j < errPos / 2 - headLen / 2) := by
  have hlast : beatOfByte (headLen + min (2 * j + 2) dataLen - 1) = headLen / 2 + j := by
    unfold segCount at hj
    unfold beatOfByte dataWidthByte
    omega
  rw [carriedBefore, hlast, Bool.eq_iff_iff, decide_eq_true_iff, decide_eq_true_iff, beatOfByte,
    dataWidthByte]
  omega

theorem filter_carried (hhead : headLen % 2 = 0) (dataLen errPos : Nat) :
    (List.range (segCount dataLen)).filter (carriedBefore headLen dataLen errPos) =
      List.range (min (segCount dataLen) (errPos / 2 - headLen / 2)) := by
  have hpred : ∀ j ∈ List.range (segCount dataLen), carriedBefore headLen dataLen errPos j =
      decide (j < errPos / 2 - headLen / 2) :=
    fun j hj => carriedBefore_eq hhead (List.mem_range.1 hj)
  rw [List.filter_congr hpred, ← List.Ico.zero_bot, List.Ico.filter_lt, List.Ico.zero_bot]

theorem toSize_sub {m n : Nat} (h : m ≤ n) (hn : n < 2 ^ 64) :
    toSize ((n : Int) - (m : Int)) = n - m := by
  rw [toSize, BitVec.toNat_ofInt]
  omega

theorem errAt_lt (d : Draws) (len : Nat) : d.errAt len < 2 ^ 16 :=
  Nat.lt_of_le_of_lt (Nat.mod_le _ _) d.errPos.isLt

theorem pushedOf_eq {lib : EthLib ε} {d : Draws} (hlib : lib.Layout node d.data head foot) :
    pushedOf lib node d =
      if d.hasErr = true ∧ head.length + 2 ≤ d.errAt (packetOf lib node d).length ∧
          d.errAt (packetOf lib node d).length ≤ head.length + d.data.length + 1 then
        (d.errAt (packetOf lib node d).length - head.length) / 2 - 1
      else segCount d.data.length := by
  have hlt := errAt_lt d (packetOf lib node d).length
  rw [pushedOf, hlib.head_len]
  generalize d.errAt (packetOf lib node d).length = e at hlt ⊢
  have hfits := hlib.head_fits
  have hpos : transErrPos head.length e = (e : Int) - (head.length : Int) := by
    rw [transErrPos, toInt_of_lt (Nat.lt_trans hlt (by decide)), toInt_of_lt hfits]
  have herr : transErr head.length d.hasErr e = true ↔ d.hasErr = true ∧ head.length ≤ e := by
    rw [transErr, Bool.and_eq_true, decide_eq_true_iff, hpos]
    exact and_congr_right' (by omega)
  simp only [pushed, herr, hpos]
  by_cases hle : head.length ≤ e
  · rw [toSize_sub hle (Nat.lt_trans hlt (by decide))]
    congr 1
    rw [and_assoc, eq_iff_iff]
    exact and_congr_right' (by omega)
  · rw [if_neg fun h => hle h.1.2, if_neg fun h => hle (by omega)]

/-- The beats of a packet and the segments that are expected agree on where the error lies. -/
structure ErrorsAgree (d : Draws) (headLen errPos : Nat) (id : DebugId) (beats : List MacIntf)
    (trans : List TransData) : Prop where
  beat : d.hasErr = true → ∀ k, (∃ b ∈ beats[k]?, b.cancel = true) ↔ k = beatOfByte errPos
  trans : trans = ((List.range (segCount d.data.length)).filter fun j =>
    !d.hasErr || carriedBefore headLen d.data.length errPos j).map (transAt d.data id)

theorem beat_agrees_iff (lib : EthLib ε) (tv : Tv ε) (node : ε) (d : Draws)
    (he : d.hasErr = true) : (∀ k, (∃ b ∈ (beatsOf lib tv node d)[k]?, b.cancel = true) ↔
      k = beatOfByte (d.errAt (packetOf lib node d).length)) ↔
        beatOfByte (d.errAt (packetOf lib node d).length) + 1 <
          segCount (packetOf lib node d).length := by
  simp only [beatsOf_cancel_iff lib tv node d he, and_iff_left_iff_imp]
  exact ⟨fun h => h _ rfl, fun h k hk => hk ▸ h⟩

theorem map_range_inj {f : Nat → α} : (List.range m).map f = (List.range n).map f ↔ m = n := by
  constructor
  · intro h
    have hlen := congrArg List.length h
    rwa [List.length_map, List.length_map, List.length_range, List.length_range] at hlen
  · rintro rfl
    rfl

theorem trans_agrees_iff {lib : EthLib ε} {d : Draws} (hlib : lib.Layout node d.data head foot)
    (hacc : nodeId ≤ 1) (he : d.hasErr = true) (tv : Tv ε) (errPos : Nat) :
    (transOf lib tv nodeId node d = ((List.range (segCount d.data.length)).filter fun j =>
      !d.hasErr || carriedBefore head.length d.data.length errPos j).map
        (transAt d.data (tv.pktId + 1))) ↔
      pushedOf lib node d = min (segCount d.data.length) (errPos / 2 - head.length / 2) := by
  simp only [he, Bool.not_true, Bool.false_or]
  rw [transOf, if_pos hacc, filter_carried hlib.head_even, map_range_inj]

theorem agree_with_error_iff {lib : EthLib ε} {d : Draws}
    (hlib : lib.Layout node d.data head foot) (hacc : nodeId ≤ 1) (he : d.hasErr = true)
    (tv : Tv ε) :
    ErrorsAgree d head.length (d.errAt (packetOf lib node d).length) (tv.pktId + 1)
      (beatsOf lib tv node d) (transOf lib tv nodeId node d) ↔
        d.data.length % 2 = 1 ∧
          d.errAt (packetOf lib node d).length + 2 = (packetOf lib node d).length := by
  have hlen : (packetOf lib node d).length = head.length + d.data.length + 4 := by
    rw [packetOf, hlib.packet, List.length_append, List.length_append, hlib.foot_len]
  have hlt : d.errAt (packetOf lib node d).length < (packetOf lib node d).length :=
    Nat.mod_lt _ (by omega)
  have hlong := d.long
  have heven := hlib.head_even
  have hparts : ErrorsAgree d head.length (d.errAt (packetOf lib node d).length) (tv.pktId + 1)
      (beatsOf lib tv node d) (transOf lib tv nodeId node d) ↔
        beatOfByte (d.errAt (packetOf lib node d).length) + 1 <
          segCount (packetOf lib node d).length ∧
        pushedOf lib node d = min (segCount d.data.length)
          (d.errAt (packetOf lib node d).length / 2 - head.length / 2) := by
    rw [← beat_agrees_iff lib tv node d he, ← trans_agrees_iff hlib hacc he tv]
    exact ⟨fun h => ⟨h.beat he, h.trans⟩, fun h => ⟨fun _ => h.1, h.2⟩⟩
  rw [hparts, pushedOf_eq hlib, beatOfByte, dataWidthByte]
  simp only [he, true_and]
  generalize d.errAt (packetOf lib node d).length = e at hlt ⊢
  unfold packetLenMin at hlong
  unfold segCount
  split <;> omega

theorem agree_without_error {lib : EthLib ε} {d : Draws}
    (hlib : lib.Layout node d.data head foot) (hacc : nodeId ≤ 1) (he : d.hasErr = false)
    (tv : Tv ε) :
    ErrorsAgree d head.length (d.errAt (packetOf lib node d).length) (tv.pktId + 1)
      (beatsOf lib tv node d) (transOf lib tv nodeId node d) where
  beat h := by
    rw [he] at h
    contradiction
  trans := by
    have hpushed : pushedOf lib node d = segCount d.data.length := by
      rw [pushedOf_eq hlib, if_neg]
      rw [he]
      exact fun h => Bool.false_ne_true h.1
    have hall : (List.range (segCount d.data.length)).filter (fun j => !d.hasErr ||
        carriedBefore head.length d.data.length (d.errAt (packetOf lib node d).length) j) =
          List.range (segCount d.data.length) := by
      rw [he]
      exact List.filter_eq_self.2 fun _ _ => rfl
    rw [transOf, if_pos hacc, hpushed, hall]

/-- An error injected into a packet of an accepted node agrees with the segments that are expected
only where it lies past the beats of the payload and before the last one. -/
theorem errors_agree_iff (lib : EthLib ε) (tv : Tv ε) (d : Draws)
    (hnode : tv.eth[nodeId]? = some node) (hacc : nodeId ≤ 1)
    (hlib : lib.Layout node d.data head foot) : (∃ tv' entries trans,
      genNewPkt lib tv nodeId d = some tv' ∧ tv'.macFifo = tv.macFifo ++ entries ∧
      tv'.dataFifo = tv.dataFifo ++ trans ∧
      ErrorsAgree d head.length (d.errAt (head ++ d.data ++ foot).length) tv'.pktId
        (entries.filter fun b => b.len ≠ 0) trans) ↔
      d.hasErr = false ∨ d.data.length % 2 = 1 ∧
        d.errAt (head ++ d.data ++ foot).length + 2 = (head ++ d.data ++ foot).length := by
  have hpkt : packetOf lib node d = head ++ d.data ++ foot := hlib.packet
  have hlen : 2 < (packetOf lib node d).length := by
    have hlong := d.long
    unfold packetLenMin at hlong
    rw [hpkt, List.length_append, List.length_append]
    omega
  have hgen := genNewPkt_eq lib tv d hnode hlen
  rw [← hpkt]
  have hagree : ErrorsAgree d head.length (d.errAt (packetOf lib node d).length) (tv.pktId + 1)
      (beatsOf lib tv node d) (transOf lib tv nodeId node d) ↔
        d.hasErr = false ∨ d.data.length % 2 = 1 ∧
          d.errAt (packetOf lib node d).length + 2 = (packetOf lib node d).length := by
    cases he : d.hasErr with
    | false => exact iff_of_true (agree_without_error hlib hacc he tv) (.inl rfl)
    | true =>
      rw [agree_with_error_iff hlib hacc he tv, or_iff_right nofun]
  refine Iff.trans ?_ hagree
  constructor
  · rintro ⟨tv', entries, trans, hrun, hmac, hdata, h⟩
    cases hrun.symm.trans hgen
    rwa [← List.append_cancel_left hmac, ← List.append_cancel_left hdata, filter_beats] at h
  · intro h
    refine ⟨_, _, _, hgen, rfl, rfl, ?_⟩
    rwa [filter_beats]

theorem length_sampleHead (n : Nat) : (sampleHead n).length = 54 := rfl

theorem sample_layout (n : Nat) : sampleLib.Layout [] (List.replicate n 0) (sampleHead n)
    (sampleFoot ((sampleHead n).drop 8 ++ List.replicate n 0)) where
  packet := by
    have hlen : (List.replicate n (0 : Byte)).length = n := List.length_replicate
    simp only [sampleLib, hlen]
  head_len := rfl
  head_even := by rw [length_sampleHead]
  head_fits := by
    rw [length_sampleHead]
    decide
  foot_len := rfl

/-- The error lies in the FCS of 109 bytes. -/
theorem errors_agree_sample : (∃ tv' entries trans,
    genNewPkt sampleLib sampleTv 0 (sampleDraws 1 0 107) = some tv' ∧
      tv'.macFifo = sampleTv.macFifo ++ entries ∧ tv'.dataFifo = sampleTv.dataFifo ++ trans ∧
      ErrorsAgree (sampleDraws 1 0 107) 54 ((sampleDraws 1 0 107).errAt 109) tv'.pktId
        (entries.filter fun b => b.len ≠ 0) trans) ↔
      (sampleDraws 1 0 107).hasErr = false ∨ (sampleDraws 1 0 107).data.length % 2 = 1 ∧
        (sampleDraws 1 0 107).errAt 109 + 2 = 109 :=
  errors_agree_iff sampleLib sampleTv (sampleDraws 1 0 107) rfl (by decide) (sample_layout 51)

/-- The error lies in the first byte of the head, and all of the payload is expected. -/
theorem not_errors_agree : ¬ ∃ tv' entries trans,
    genNewPkt sampleLib sampleTv 0 (sampleDraws 2 0 0) = some tv' ∧
      tv'.macFifo = sampleTv.macFifo ++ entries ∧ tv'.dataFifo = sampleTv.dataFifo ++ trans ∧
      ErrorsAgree (sampleDraws 2 0 0) 54 ((sampleDraws 2 0 0).errAt 110) tv'.pktId
        (entries.filter fun b => b.len ≠ 0) trans := by
  rintro ⟨tv', entries, trans, hrun, -, hdata, h⟩
  have hlength : (genNewPkt sampleLib sampleTv 0 (sampleDraws 2 0 0)).map (·.dataFifo.length) =
      some 26 := by decide +kernel
  rw [hrun, Option.map_some, hdata] at hlength
  have hcount : trans.length = 26 := Option.some.inj hlength
  have hnone : (List.range (segCount (sampleDraws 2 0 0).data.length)).filter (fun j =>
      !(sampleDraws 2 0 0).hasErr || carriedBefore 54 (sampleDraws 2 0 0).data.length
        ((sampleDraws 2 0 0).errAt 110) j) = [] := by decide +kernel
  rw [h.trans, hnone, List.map_nil, List.length_nil] at hcount
  exact absurd hcount (by decide)

end LowLatencyEthernet.Tb
