import LowLatencyEthernet.Beat.TxHeader

namespace LowLatencyEthernet.EthTx
set_option autoImplicit true

open Sync

variable {p : Params} {maskO : BitVec 2 → BitVec 2} {s : State p}

/-- The cycles of a body: a beat of payload in each cycle of the data state, one of which but the
last announces the bytes that come after it, and two cycles more. Nothing is cancelled. -/
structure Body where
  before : List In
  mark : In
  after : List In
  last : In
  foot : List In
  uncancelled : ∀ i ∈ (before ++ mark :: after) ++ last :: foot, i.appCancelI = false
  not_last : ∀ i ∈ before ++ mark :: after, i.appLastI = false
  last_last : last.appLastI = true
  last_len : last.appLenI = 1 ∨ last.appLenI = 2
  mark_next : mark.appLastBlockNextI = true
  mark_only : ∀ i ∈ before ++ (after ++ [last]), i.appLastBlockNextI = false
  announced : mark.appLastBlockNextLenI.toNat = payloadLen (after ++ [last])
  block : payloadLen (after ++ [last]) ≤ 10
  foot_length : foot.length = 2

namespace Body

def front (b : Body) : List In := b.before ++ b.mark :: b.after

def cycles (b : Body) : List In := b.front ++ b.last :: b.foot

def payload (b : Body) : List Byte :=
  wireBytes (b.front.map In.appDataI) ++ wordBytes b.last.appDataI b.last.appLenI

/-- The bytes of the frame that are still to be sent when cycle `k` comes. -/
def left (b : Body) (k : Nat) : Nat := b.payload.length + 4 - 2 * k

end Body

/-- What a transmitter in state `s` does with a body. The frame ends with the four bytes of the
check register as the last beat finds it; the byte that fills up the last word of an odd payload is
not part of the frame any more. -/
structure BodySent (maskO : BitVec 2 → BitVec 2) (s : State p) (b : Body) : Prop where
  bytes : ∃ fill, fill.length = b.payload.length % 2 ∧
    wireBytes (delivered (machine p maskO) port s b.cycles) =
      b.payload ++ crcBytes (crcRaw ((machine p maskO).run s b.front)) ++ fill
  dense : ∀ o ∈ (machine p maskO).trace s b.cycles, o.phyIdleO = false
  states : ∀ k ≤ b.cycles.length, Codes bit ((machine p maskO).run s (b.cycles.take k))
    (if k ≤ b.front.length then .data else if k < b.cycles.length then .foot else .idle)
  term : ∀ k i, b.cycles[k]? = some i → b.before.length < k →
    (out maskO ((machine p maskO).run s (b.cycles.take k)) i).phyTermO = true ∧
      (out maskO ((machine p maskO).run s (b.cycles.take k)) i).phyTermLenO.toNat = b.left k

namespace Body

variable (b : Body)

theorem length_cycles : b.cycles.length = b.front.length + 3 := by
  rw [cycles, List.length_append, List.length_cons, b.foot_length]

theorem length_payload : b.payload.length = 2 * b.front.length + b.last.appLenI.toNat := by
  rw [payload, List.length_append, length_wireBytes, List.length_map, wordBytes, List.length_take]
  rcases b.last_len with hl | hl <;> rw [hl] <;> rfl

theorem len_cases : b.last.appLenI.toNat = 1 ∨ b.last.appLenI.toNat = 2 := by
  rcases b.last_len with hl | hl <;> rw [hl]
  · exact .inl rfl
  · exact .inr rfl

theorem length_front : b.front.length = b.before.length + 1 + b.after.length := by
  rw [front, List.length_append, List.length_cons]
  omega

theorem announced_eq : payloadLen (b.after ++ [b.last]) =
    2 * b.after.length + b.last.appLenI.toNat := by
  have hafter : payloadLen b.after = 2 * b.after.length :=
    payloadLen_full fun i hi => b.not_last i (by simp [hi])
  rw [payloadLen_append, hafter, payloadLen_last b.last_last]

theorem left_succ (hk : k ≤ b.front.length + 1) : b.left k = b.left (k + 1) + 2 := by
  have hlen := b.length_payload
  have hl := b.len_cases
  rw [left, left]
  omega

theorem uncancelled_get {k : Nat} {i : In} (h : b.cycles[k]? = some i) : i.appCancelI = false :=
  b.uncancelled i (List.mem_of_getElem? h)

theorem cycles_last : b.cycles[b.front.length]? = some b.last := by
  rw [cycles, List.getElem?_append_right (Nat.le_refl _), Nat.sub_self]
  rfl

theorem quiet_get {k : Nat} {i : In} (h : b.cycles[k]? = some i) (hk : b.before.length < k)
    (hle : k ≤ b.front.length) : i.appLastBlockNextI = false := by
  have hlen := b.length_front
  have hsplit : b.cycles = (b.before ++ [b.mark]) ++ ((b.after ++ [b.last]) ++ b.foot) := by
    simp [cycles, front]
  have hlen' : (b.before ++ [b.mark]).length = b.before.length + 1 := by simp
  rw [hsplit, List.getElem?_append_right (by omega), hlen', List.getElem?_append_left (by
    rw [List.length_append, List.length_singleton]
    omega)] at h
  exact b.mark_only i (List.mem_append_right _ (List.mem_of_getElem? h))

theorem cycles_mark : b.cycles[b.before.length]? = some b.mark := by
  rw [cycles, front, List.append_assoc, List.getElem?_append_right (Nat.le_refl _), Nat.sub_self]
  rfl

theorem front_run (h : InData s) (maskO : BitVec 2 → BitVec 2) (hk : k ≤ b.front.length) :
    InData ((machine p maskO).run s (b.cycles.take k)) := by
  have htake : b.cycles.take k = b.front.take k := List.take_append_of_le_length hk
  rw [htake]
  refine (h.run maskO fun i hi => ?_).1
  have hmem : i ∈ b.front := List.mem_of_mem_take hi
  exact ⟨b.uncancelled i (List.mem_append_left _ hmem), b.not_last i hmem⟩

end Body

/-- The last block has been announced, and `n` bytes of the frame are left. -/
structure Marked (n : Nat) (s : State p) : Prop where
  block : s.lastBlockVQ = true
  cnt : s.footCntQ.toNat = n

theorem Marked.next (h : Marked (n + 2) s) (hi : s.fsmIdleQ = false)
    (hq : s.fsmDataQ = true → i.appLastBlockNextI = false) :
    Marked n (EthTx.next true s i) := by
  have hrst : footCntRst s i = false := by
    cases hd : s.fsmDataQ with
    | false => simp [footCntRst, hd]
    | true => simp [footCntRst, hq hd]
  have hcnt := h.cnt
  have hle : (2 : BitVec 4) ≤ s.footCntQ := by
    rw [BitVec.le_def, hcnt]
    exact Nat.le_add_left 2 n
  have hsub : (s.footCntQ - 2).toNat = n := by
    rw [BitVec.toNat_sub_of_le hle, hcnt]
    rfl
  constructor
  · simp [EthTx.next, lastBlockVNext, h.block, hi]
  · have hnext : footCntNext s i = s.footCntQ - 2 := by simp [footCntNext, hrst, footCntDec]
    change (footCntNext s i).toNat = n
    rw [hnext, hsub]

theorem marked_of_mark (hd : InData s) (hm : i.appLastBlockNextI = true)
    (hlen : i.appLastBlockNextLenI.toNat = n) (hn : n ≤ 10) :
    Marked (n + 4) (EthTx.next true s i) := by
  obtain ⟨_, _, hdata, _⟩ := hd
  have hinit : (footCntInit i).toNat = n + 4 := by
    rw [footCntInit, BitVec.toNat_add, hlen]
    change (n + 4) % 16 = n + 4
    omega
  constructor
  · simp [EthTx.next, lastBlockVNext, hdata, hm]
  · simp [EthTx.next, footCntNext, footCntRst, hdata, hm, hinit]

theorem Marked.out (h : Marked n s) (i : In) :
    (EthTx.out maskO s i).phyTermO = true ∧ (EthTx.out maskO s i).phyTermLenO.toNat = n := by
  have hterm : dataTerm s i = true := by simp [dataTerm, h.block]
  constructor
  · exact hterm
  · change (dataTermLen s i).toNat = n
    rw [dataTermLen, hterm, gated, ← h.cnt]
    simp

theorem Marked.endFootV (h : Marked n s) : endFootV s = decide (n ≤ 2) := by
  have hgt : s.footCntQ > 2 ↔ ¬ n ≤ 2 := by
    rw [gt_iff_lt, BitVec.lt_def, h.cnt]
    exact Nat.not_le.symm
  rw [EthTx.endFootV, decide_eq_decide.2 hgt, decide_not, Bool.not_not]

namespace Body

variable (b : Body)

theorem marked_data (h : InData s) (maskO : BitVec 2 → BitVec 2) (hk : b.before.length < k)
    (hle : k ≤ b.front.length) :
    Marked (b.left k) ((machine p maskO).run s (b.cycles.take k)) := by
  have hfront := b.length_front
  have hsize := b.length_cycles
  induction k, hk using Nat.le_induction with
  | base =>
    have hdata := b.front_run h maskO (k := b.before.length) (by omega)
    have hleft : b.left (b.before.length + 1) = payloadLen (b.after ++ [b.last]) + 4 := by
      rw [left, b.length_payload, b.announced_eq]
      omega
    rw [Mealy.run_take_succ _ b.cycles_mark, hleft]
    exact marked_of_mark hdata b.mark_next b.announced b.block
  | succ k hk ih =>
    have hget : b.cycles[k]? = some b.cycles[k] := List.getElem?_eq_getElem (by omega)
    have hmark := ih (by omega)
    have hdata := b.front_run h maskO (k := k) (by omega)
    rw [b.left_succ (by omega)] at hmark
    rw [Mealy.run_take_succ _ hget]
    exact hmark.next hdata.1 fun _ => b.quiet_get hget hk (by omega)

theorem codes_of_inData (h : InData s) : Codes bit s .data := codes_iff.2 h

theorem foot_first (h : InData s) (maskO : BitVec 2 → BitVec 2) :
    Codes bit ((machine p maskO).run s (b.cycles.take (b.front.length + 1))) .foot ∧
      Marked (b.left (b.front.length + 1))
        ((machine p maskO).run s (b.cycles.take (b.front.length + 1))) := by
  have hdata := b.front_run h maskO (Nat.le_refl _)
  have hfront := b.length_front
  have hmark := b.marked_data h maskO (by omega) (Nat.le_refl _)
  have hcodes := codes_next (codes_of_inData hdata) b.last
  rw [Fsm.next, b.uncancelled_get b.cycles_last, b.last_last] at hcodes
  rw [b.left_succ (by omega)] at hmark
  rw [Mealy.run_take_succ _ b.cycles_last]
  refine ⟨hcodes, hmark.next hdata.1 fun _ => ?_⟩
  exact b.quiet_get b.cycles_last (by omega) (Nat.le_refl _)

theorem foot_second (h : InData s) (maskO : BitVec 2 → BitVec 2) :
    Codes bit ((machine p maskO).run s (b.cycles.take (b.front.length + 2))) .foot ∧
      Marked (b.left (b.front.length + 2))
        ((machine p maskO).run s (b.cycles.take (b.front.length + 2))) := by
  obtain ⟨hfoot, hmark⟩ := b.foot_first h maskO
  have hsize := b.length_cycles
  have hpay := b.length_payload
  have hlen := b.len_cases
  have hget : b.cycles[b.front.length + 1]? = some b.cycles[b.front.length + 1] :=
    List.getElem?_eq_getElem (by omega)
  have hend : endFootV ((machine p maskO).run s (b.cycles.take (b.front.length + 1))) = false := by
    rw [hmark.endFootV, left]
    exact decide_eq_false (by omega)
  have hcodes := codes_next hfoot b.cycles[b.front.length + 1]
  rw [Fsm.next, b.uncancelled_get hget, hend] at hcodes
  rw [b.left_succ (by omega)] at hmark
  rw [Mealy.run_take_succ _ hget]
  obtain ⟨hi, _, hd, _⟩ := codes_iff.1 hfoot
  exact ⟨hcodes, hmark.next hi fun h1 => Bool.noConfusion (hd.symm.trans h1)⟩

theorem foot_last (h : InData s) (maskO : BitVec 2 → BitVec 2) :
    Codes bit ((machine p maskO).run s (b.cycles.take (b.front.length + 3))) .idle := by
  obtain ⟨hfoot, hmark⟩ := b.foot_second h maskO
  have hsize := b.length_cycles
  have hpay := b.length_payload
  have hlen := b.len_cases
  have hget : b.cycles[b.front.length + 2]? = some b.cycles[b.front.length + 2] :=
    List.getElem?_eq_getElem (by omega)
  have hend : endFootV ((machine p maskO).run s (b.cycles.take (b.front.length + 2))) = true := by
    rw [hmark.endFootV, left]
    exact decide_eq_true (by omega)
  have hcodes := codes_next hfoot b.cycles[b.front.length + 2]
  rw [Fsm.next, b.uncancelled_get hget, hend] at hcodes
  rw [Mealy.run_take_succ _ hget]
  exact hcodes

theorem states (h : InData s) (maskO : BitVec 2 → BitVec 2) (hk : k ≤ b.cycles.length) :
    Codes bit ((machine p maskO).run s (b.cycles.take k))
      (if k ≤ b.front.length then .data else if k < b.cycles.length then .foot else .idle) := by
  have hsize := b.length_cycles
  by_cases hdata : k ≤ b.front.length
  · rw [if_pos hdata]
    exact codes_of_inData (b.front_run h maskO hdata)
  rw [if_neg hdata]
  by_cases hlast : k < b.cycles.length
  · rw [if_pos hlast]
    have hfoot : k = b.front.length + 1 ∨ k = b.front.length + 2 := by omega
    rcases hfoot with rfl | rfl
    · exact (b.foot_first h maskO).1
    · exact (b.foot_second h maskO).1
  · obtain rfl : k = b.front.length + 3 := by omega
    rw [if_neg hlast]
    exact b.foot_last h maskO

theorem marked (h : InData s) (maskO : BitVec 2 → BitVec 2) (hk : b.before.length < k)
    (hle : k < b.cycles.length) :
    Marked (b.left k) ((machine p maskO).run s (b.cycles.take k)) := by
  have hsize := b.length_cycles
  by_cases hdata : k ≤ b.front.length
  · exact b.marked_data h maskO hk hdata
  · have hfoot : k = b.front.length + 1 ∨ k = b.front.length + 2 := by omega
    rcases hfoot with rfl | rfl
    · exact (b.foot_first h maskO).2
    · exact (b.foot_second h maskO).2

theorem dense (h : InData s) (maskO : BitVec 2 → BitVec 2) :
    ∀ o ∈ (machine p maskO).trace s b.cycles, o.phyIdleO = false := by
  intro o ho
  obtain ⟨k, hk⟩ := List.mem_iff_getElem?.1 ho
  have hlt := (List.getElem?_eq_some_iff.1 hk).1
  rw [Mealy.length_trace] at hlt
  rw [Mealy.getElem?_trace, List.getElem?_eq_getElem hlt] at hk
  obtain rfl := Option.some.inj hk
  have hcodes := b.states h maskO (Nat.le_of_lt hlt)
  rw [if_pos hlt] at hcodes
  change (!dataV _) = false
  by_cases hdata : k ≤ b.front.length
  · rw [if_pos hdata] at hcodes
    have hset : ((machine p maskO).run s (b.cycles.take k)).fsmDataQ = true := hcodes.set
    simp [dataV, hset]
  · rw [if_neg hdata] at hcodes
    have hset : ((machine p maskO).run s (b.cycles.take k)).fsmFootQ = true := hcodes.set
    simp [dataV, hset]

theorem bytes (hmask : LenToMask maskO) (h : InData s) :
    ∃ fill, fill.length = b.payload.length % 2 ∧
      wireBytes (delivered (machine p maskO) port s b.cycles) =
        b.payload ++ crcBytes (crcRaw ((machine p maskO).run s b.front)) ++ fill := by
  have hpay := b.length_payload
  have hlen := b.len_cases
  have hcan (i : In) (hi : i ∈ b.last :: b.foot) : i.appCancelI = false :=
    b.uncancelled i (List.mem_append_right _ hi)
  have hbody (i : In) (hi : i ∈ b.front) : i.appCancelI = false ∧ i.appLastI = false :=
    ⟨b.uncancelled i (List.mem_append_left _ hi), b.not_last i hi⟩
  obtain ⟨hdata, _, hfront⟩ := h.run maskO hbody
  obtain ⟨c, hfoot, hclose⟩ :=
    hdata.last hmask (hcan b.last List.mem_cons_self) b.last_last b.last_len
  have htake : b.cycles.take (b.front.length + 1) = b.front ++ [b.last] := by
    rw [cycles, List.append_cons, List.take_left' (by simp)]
  have hcnt := (b.foot_first h maskO).2.cnt
  rw [htake, Mealy.run_append, left] at hcnt
  have hcnt : (next true ((machine p maskO).run s b.front) b.last).footCntQ.toNat = _ := hcnt
  rw [hfoot.cnt] at hcnt
  have hsize := b.foot_length
  obtain ⟨_, rest, hrest, hsent⟩ := hfoot.halves maskO
    (fun i hi => hcan i (List.mem_cons_of_mem _ hi)) (by rw [hcnt]; omega) (by omega)
  have hnil : rest = [] := List.eq_nil_of_length_eq_zero (by omega)
  obtain ⟨fill, _, hwire⟩ := wireBytes_closing b.last_len b.last.appDataI
    (crcRaw ((machine p maskO).run s b.front)) b.last.x.crcRawShifted
  have hout : (machine p maskO).out ((machine p maskO).run s b.front) b.last =
    out maskO ((machine p maskO).run s b.front) b.last := rfl
  have hsent : delivered (machine p maskO) port
      ((machine p maskO).next ((machine p maskO).run s b.front) b.last) b.foot = _ := hsent
  refine ⟨fill, ?_, ?_⟩
  · have hthree : (closing b.last.appLenI b.last.appDataI
        (crcRaw ((machine p maskO).run s b.front)) b.last.x.crcRawShifted).length = 3 := by
      rcases b.last_len with hl | hl <;> rw [hl] <;> rfl
    have hword : (wordBytes b.last.appDataI b.last.appLenI).length = b.last.appLenI.toNat := by
      rcases b.last_len with hl | hl <;> rw [hl] <;> rfl
    have hall := congrArg List.length hwire
    rw [length_wireBytes, hthree, List.length_append, List.length_append, hword] at hall
    change 6 = _ + 4 + _ at hall
    omega
  · rw [cycles, delivered_append, delivered_cons, hfront, hsent, hnil, hout, hclose,
      wireBytes_append, hwire, payload, List.append_assoc, List.append_assoc, List.append_assoc]

end Body

/-- Every body is sent, whatever the other registers of the transmitter hold. -/
theorem body_sent (p : Params) (hmask : LenToMask maskO) (s : State p)
    (h : Codes bit s .data) (b : Body) : BodySent maskO s b where
  bytes := b.bytes hmask (codes_iff.1 h)
  dense := b.dense (codes_iff.1 h) maskO
  states _ hk := b.states (codes_iff.1 h) maskO hk
  term k i hi hk := by
    have hlt := (List.getElem?_eq_some_iff.1 hi).1
    exact (b.marked (codes_iff.1 h) maskO hk hlt).out i

def sampleBody : Body where
  before := []
  mark := { quietIn with appDataI := 0x2211, appLastBlockNextI := true, appLastBlockNextLenI := 3 }
  after := [{ quietIn with appDataI := 0x4433 }]
  last := { quietIn with appDataI := 0x0055, appLenI := 1, appLastI := true }
  foot := List.replicate 2 quietIn
  uncancelled := by decide
  not_last := by decide
  last_last := rfl
  last_len := .inl rfl
  mark_next := rfl
  mark_only := by decide
  announced := rfl
  block := by decide
  foot_length := rfl

theorem body_sent_sample : BodySent lenToMask
    { (default : State sampleParams) with fsmDataQ := true } sampleBody :=
  body_sent sampleParams lenToMask_spec _ (codes_iff.2 ⟨rfl, rfl, rfl, rfl⟩) sampleBody

end LowLatencyEthernet.EthTx
