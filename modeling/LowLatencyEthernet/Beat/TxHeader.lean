import LowLatencyEthernet.Sync.OneHot
import LowLatencyEthernet.Beat.FrameSequence

namespace LowLatencyEthernet.EthTx
set_option autoImplicit true

open Sync

variable {p : Params} {maskO : BitVec 2 → BitVec 2} {s : State p} {init : BitVec (8 * headN p)}

inductive Fsm where
  | idle
  | head
  | data
  | foot
deriving DecidableEq, Repr

def bit (s : State p) : Fsm → Bool
  | .idle => s.fsmIdleQ
  | .head => s.fsmHeadQ
  | .data => s.fsmDataQ
  | .foot => s.fsmFootQ

theorem codes_iff : Codes bit s l ↔ s.fsmIdleQ = decide (Fsm.idle = l) ∧
    s.fsmHeadQ = decide (Fsm.head = l) ∧ s.fsmDataQ = decide (Fsm.data = l) ∧
      s.fsmFootQ = decide (Fsm.foot = l) := by
  constructor
  · exact fun h => ⟨h .idle, h .head, h .data, h .foot⟩
  · rintro ⟨hi, hh, hd, hf⟩ j
    cases j with
    | idle => exact hi
    | head => exact hh
    | data => exact hd
    | foot => exact hf

/-- The state after a cycle. -/
def Fsm.next (s : State p) (i : In) : Fsm → Fsm
  | .idle => if i.appCancelI || !i.appEarlyVI then .idle else .head
  | .head => if i.appCancelI then .idle else if endHeadV s then .data else .head
  | .data => if i.appCancelI then .idle else if i.appLastI then .foot else .data
  | .foot => if i.appCancelI || endFootV s then .idle else .foot

theorem codes_next (h : Codes bit s l) (i : In) : Codes bit (next true s i) (l.next s i) := by
  obtain ⟨hi, hh, hd, hf⟩ := codes_iff.1 h
  rw [codes_iff]
  cases l with
  | idle =>
    cases hc : i.appCancelI <;> cases he : i.appEarlyVI <;>
      simp [next, Fsm.next, fsmIdleNext, fsmHeadNext, fsmDataNext, fsmFootNext, hi, hh, hd, hf,
        hc, he]
  | head =>
    cases hc : i.appCancelI <;> cases he : endHeadV s <;>
      simp [next, Fsm.next, fsmIdleNext, fsmHeadNext, fsmDataNext, fsmFootNext, hi, hh, hd, hf,
        hc, he]
  | data =>
    cases hc : i.appCancelI <;> cases he : i.appLastI <;>
      simp [next, Fsm.next, fsmIdleNext, fsmHeadNext, fsmDataNext, fsmFootNext, hi, hh, hd, hf,
        hc, he]
  | foot =>
    cases hc : i.appCancelI <;> cases he : endFootV s <;>
      simp [next, Fsm.next, fsmIdleNext, fsmHeadNext, fsmDataNext, fsmFootNext, hi, hh, hd, hf,
        hc, he]

theorem oneHot_run (h : OneHot bit s) (maskO : BitVec 2 → BitVec 2) (is : List In) :
    OneHot bit ((machine p maskO).run s is) := by
  induction is generalizing s with
  | nil => exact h
  | cons i is ih =>
    obtain ⟨l, hl⟩ := h
    exact ih (codes_next hl i).oneHot

theorem oneHot_reset (s : State p) (i : In) : OneHot bit (reset s i) :=
  ⟨.idle, codes_iff.2 ⟨rfl, rfl, rfl, rfl⟩⟩

/-- Word `k - 1` of the headers is sent, the counter having been `c` when they were requested. -/
structure InHeader (init : BitVec (8 * headN p)) (c : BitVec 6) (k : Nat) (s : State p) :
    Prop where
  codes : Codes bit s .head
  pos : 1 ≤ k
  cnt : s.headCntQ = c + BitVec.ofNat 6 (2 * k)
  shift : Shifted init (k - 1) s

theorem InHeader.endHeadV (h : InHeader init c k s) :
    endHeadV s = decide (headN p ≤ (c.toNat + 2 * k) % 64) := by
  rw [EthTx.endHeadV, h.cnt, BitVec.toNat_add, BitVec.toNat_ofNat, Nat.add_mod_mod]

theorem InHeader.next (h : InHeader init c k s) (hl : Live i) (he : EthTx.endHeadV s = false) :
    InHeader init c (k + 1) (EthTx.next true s i) := by
  obtain ⟨hc, hr⟩ := hl
  obtain ⟨hi, hh, _⟩ := codes_iff.1 h.codes
  have hpos := h.pos
  refine ⟨?_, Nat.le_add_left 1 k, ?_, ?_⟩
  · have hnext := codes_next h.codes i
    rwa [Fsm.next, hc, he] at hnext
  · have hadd : BitVec.ofNat 6 (2 * k) + (2 : BitVec 6) = BitVec.ofNat 6 (2 * (k + 1)) :=
      (BitVec.ofNat_add (2 * k) 2).symm
    have hcnt : (EthTx.next true s i).headCntQ = s.headCntQ + 2 := by
      simp [EthTx.next, headCntEn, headCntNext, headCntRst, headCntAdd, hi, hh, hr]
    rw [hcnt, h.cnt, BitVec.add_assoc, hadd]
  · have hk : k - 1 + 1 = k + 1 - 1 := by omega
    rw [← hk]
    exact h.shift.next hi

theorem head_word (hc : Codes bit s .head) (h : Shifted init k s) (hk : 2 * k < headN p) :
    (out maskO s i).phyDataO = init.extractLsb' (16 * k) 16 := by
  obtain ⟨_, hh, hd, hf⟩ := codes_iff.1 hc
  have hdata : (out maskO s i).phyDataO = headData s := by
    simp [out, data, gated, hh, hd, hf]
  rw [hdata]
  exact h.word hk

theorem InHeader.word (h : InHeader init c k s) (hk : 2 * k ≤ headN p) :
    (out maskO s i).phyDataO = init.extractLsb' (16 * (k - 1)) 16 := by
  have hpos := h.pos
  exact head_word h.codes h.shift (by omega)

def Accepted (s : State p) (i : In) : Prop :=
  s.fsmIdleQ = true ∧ i.appEarlyVI = true ∧ i.appCancelI = false

instance : Decidable (Accepted s i) := inferInstanceAs (Decidable (_ ∧ _))

theorem Accepted.codes (h : Accepted s i) (hone : OneHot bit s) : Codes bit s .idle := by
  obtain ⟨l, hl⟩ := hone
  have hidle : bit s .idle = true := h.1
  rw [hl, decide_eq_true_iff] at hidle
  rwa [hidle]

theorem Accepted.opens (h : Accepted s i) (hone : OneHot bit s) :
    Codes bit (next true s i) .head ∧ Shifted (headInit p i) 0 (next true s i) := by
  have hcodes := h.codes hone
  obtain ⟨hi, he, hc⟩ := h
  constructor
  · have hnext := codes_next hcodes i
    rwa [Fsm.next, hc, he] at hnext
  · intro j hj
    simp [next, headNext, headRst, hi, he]

theorem Accepted.inHeader (h : Accepted s i) (hone : OneHot bit s) (hr : i.phyReadyI = true) :
    InHeader (headInit p i) s.headCntQ 1 (next true s i) := by
  obtain ⟨hcodes, hshift⟩ := h.opens hone
  obtain ⟨hi, he, _⟩ := h
  refine ⟨hcodes, Nat.le_refl 1, ?_, hshift⟩
  simp [next, headCntEn, headCntNext, headCntRst, headCntAdd, hi, he, hr]

/-- A request that is accepted in state `s` has its headers sent whole: for exactly as many cycles
as they have words the transmitter is in the header state, and sends them word for word. -/
structure Emits (maskO : BitVec 2 → BitVec 2) (s : State p) (i : In) : Prop where
  stays : ∀ js, (∀ j ∈ js, Live j) → js.length < headN p / 2 →
    Codes bit ((machine p maskO).run (next true s i) js) .head
  leaves : ∀ js, (∀ j ∈ js, Live j) → js.length = headN p / 2 →
    ((machine p maskO).run (next true s i) js).fsmHeadQ = false
  words : ∀ js, (∀ j ∈ js, Live j) → js.length = headN p / 2 →
    ((machine p maskO).trace (next true s i) js).map Out.phyDataO = headWords (headInit p i)

theorem InHeader.run {is : List In} (h : InHeader init c k s) (maskO : BitVec 2 → BitVec 2)
    (hl : ∀ i ∈ is, Live i)
    (hk : ∀ m, k ≤ m → m < k + is.length → (c.toNat + 2 * m) % 64 < headN p) :
    InHeader init c (k + is.length) ((machine p maskO).run s is) := by
  induction is generalizing s k with
  | nil => exact h
  | cons i is ih =>
    have hend : EthTx.endHeadV s = false := by
      rw [h.endHeadV]
      exact decide_eq_false (Nat.not_le.2 (hk k (Nat.le_refl k) (by simp)))
    have hnext := ih (h.next (hl i List.mem_cons_self) hend)
      (fun j hj => hl j (List.mem_cons_of_mem _ hj))
      fun m hm hlt => hk m (by omega) (by rw [List.length_cons]; omega)
    rwa [Nat.add_right_comm, Nat.add_assoc] at hnext

theorem InHeader.leaves (h : InHeader init c k s) (hl : Live i)
    (hk : headN p ≤ (c.toNat + 2 * k) % 64) : (EthTx.next true s i).fsmHeadQ = false := by
  have hend : EthTx.endHeadV s = true := by
    rw [h.endHeadV]
    exact decide_eq_true hk
  have hnext := codes_next h.codes i
  rw [Fsm.next, hl.1, hend] at hnext
  exact hnext .head

theorem InHeader.stays (h : InHeader init c k s) (hl : Live i)
    (hnext : (EthTx.next true s i).fsmHeadQ = true) : (c.toNat + 2 * k) % 64 < headN p := by
  by_contra hge
  exact Bool.noConfusion (hnext.symm.trans (h.leaves hl (Nat.le_of_not_lt hge)))

theorem emits_of_le (h : InHeader (headInit p i) c 1 (next true s i)) (hc : c.toNat ≤ 1) :
    Emits maskO s i := by
  have hN := headN_cases p
  have hrun (js : List In) (hl : ∀ j ∈ js, Live j) (hlen : js.length < headN p / 2) :
      InHeader (headInit p i) c (1 + js.length) ((machine p maskO).run (next true s i) js) :=
    h.run maskO hl fun m _ hm => by omega
  refine ⟨fun js hl hlen => (hrun js hl hlen).codes, ?_, ?_⟩
  · intro js hl hlen
    rcases List.eq_nil_or_concat js with rfl | ⟨init, j, rfl⟩
    · simp at hlen
      omega
    · rw [List.concat_eq_append] at hl hlen ⊢
      rw [List.length_append, List.length_singleton] at hlen
      have hlast := hrun init (fun m hm => hl m (List.mem_append_left _ hm)) (by omega)
      rw [Mealy.run_append]
      exact hlast.leaves (hl j (by simp)) (by omega)
  · intro js hl hlen
    apply List.ext_getElem?
    intro k
    rw [List.getElem?_map, Mealy.getElem?_trace]
    by_cases hk : k < js.length
    · have htake : (js.take k).length = k := List.length_take_of_le (Nat.le_of_lt hk)
      have hat := hrun (js.take k) (fun m hm => hl m (List.mem_of_mem_take hm)) (by omega)
      have hword : (out maskO ((machine p maskO).run (next true s i) (js.take k)) js[k]).phyDataO =
          _ := hat.word (by omega)
      rw [htake, Nat.add_sub_cancel_left] at hword
      rw [List.getElem?_eq_getElem hk, getElem?_headWords _ (by omega), ← hword]
      rfl
    · rw [List.getElem?_eq_none (by omega), List.getElem?_eq_none]
      · rfl
      · rw [length_headWords]
        omega

theorem Emits.inHeader (he : Emits maskO s i)
    (h : InHeader (headInit p i) c 1 (next true s i)) (hm : m < headN p / 2) :
    InHeader (headInit p i) c (m + 1)
        ((machine p maskO).run (next true s i) (List.replicate m quietIn)) ∧
      ∀ k, 1 ≤ k → k ≤ m → (c.toNat + 2 * k) % 64 < headN p := by
  have hlive (n : Nat) : ∀ j ∈ List.replicate n quietIn, Live j := by
    intro j hj
    rw [List.eq_of_mem_replicate hj]
    exact ⟨rfl, rfl⟩
  induction m with
  | zero => exact ⟨h, fun k h1 h0 => absurd h1 (by omega)⟩
  | succ m ih =>
    obtain ⟨hat, hlow⟩ := ih (Nat.lt_of_succ_lt hm)
    have hstay := he.stays (List.replicate (m + 1) quietIn) (hlive _)
      (by rwa [List.length_replicate])
    rw [List.replicate_succ', Mealy.run_append] at hstay ⊢
    have hlt := hat.stays (i := quietIn) ⟨rfl, rfl⟩ hstay.set
    constructor
    · apply hat.next ⟨rfl, rfl⟩
      rw [hat.endHeadV]
      exact decide_eq_false (Nat.not_le.2 hlt)
    · intro k h1 hk
      rcases Nat.eq_or_lt_of_le hk with rfl | hk
      · exact hlt
      · exact hlow k h1 (Nat.le_of_lt_succ hk)

theorem le_of_emits (h : InHeader (headInit p i) c 1 (next true s i)) (he : Emits maskO s i) :
    c.toNat ≤ 1 := by
  have hN := headN_cases p
  have hlt := c.isLt
  obtain ⟨hat, hlow⟩ := he.inHeader h (m := headN p / 2 - 1) (by omega)
  have hleave := he.leaves (List.replicate (headN p / 2 - 1 + 1) quietIn)
    (fun j hj => by rw [List.eq_of_mem_replicate hj]; exact ⟨rfl, rfl⟩)
    (by rw [List.length_replicate]; omega)
  rw [List.replicate_succ', Mealy.run_append] at hleave
  have hend : headN p ≤ (c.toNat + 2 * (headN p / 2 - 1 + 1)) % 64 := by
    by_contra hge
    have hnext := hat.next (i := quietIn) ⟨rfl, rfl⟩ (by
      rw [hat.endHeadV]
      exact decide_eq_false hge)
    exact Bool.noConfusion (hleave.symm.trans hnext.codes.set)
  -- the counter must not get there early, neither just before the end nor before it wraps
  by_contra hc
  have h1 := hlow (headN p / 2 - 1) (by omega) (Nat.le_refl _)
  have h2 := hlow ((63 - c.toNat) / 2)
  omega

/-- The headers of a request are sent whole exactly when the counter has been cleared. -/
theorem emits_iff (hone : OneHot bit s) (h : Accepted s i) (hr : i.phyReadyI = true)
    (maskO : BitVec 2 → BitVec 2) : Emits maskO s i ↔ s.headCntQ.toNat ≤ 1 :=
  ⟨le_of_emits (h.inHeader hone hr), emits_of_le (h.inHeader hone hr)⟩

def Fsm.Body (l : Fsm) : Prop := l = .data ∨ l = .foot

theorem Fsm.Body.next (h : Body l) (s : State p) (i : In) :
    Fsm.next s i l = .idle ∨ Body (Fsm.next s i l) := by
  rcases h with rfl | rfl
  · cases hc : i.appCancelI <;> cases he : i.appLastI <;> simp [Fsm.next, Body, hc, he]
  · cases hc : i.appCancelI <;> cases he : endFootV s <;> simp [Fsm.next, Body, hc, he]

theorem headCntQ_body (h : Codes bit s l) (hb : l.Body) (i : In) :
    (next true s i).headCntQ = s.headCntQ := by
  obtain ⟨hi, hh, _⟩ := codes_iff.1 h
  rcases hb with rfl | rfl <;> simp [next, headCntEn, hi, hh]

theorem headCntQ_run {is : List In} (h : Codes bit s l) (hb : l.Body)
    (hbusy : ∀ pre post, is = pre ++ post → post ≠ [] →
      ((machine p maskO).run s pre).fsmIdleQ = false) :
    ((machine p maskO).run s is).headCntQ = s.headCntQ := by
  induction is generalizing s l with
  | nil => rfl
  | cons i is ih =>
    have hcnt : ((machine p maskO).next s i).headCntQ = s.headCntQ := headCntQ_body h hb i
    have hcodes : Codes bit ((machine p maskO).next s i) (l.next s i) := codes_next h i
    by_cases hnil : is = []
    · rw [hnil]
      exact hcnt
    · have hidle := hbusy [i] is rfl hnil
      have hb' : (l.next s i).Body := by
        rcases hb.next s i with he | hb'
        · rw [he] at hcodes
          exact Bool.noConfusion (hidle.symm.trans hcodes.set)
        · exact hb'
      rw [Mealy.run_cons, ih hcodes hb', hcnt]
      rintro pre post rfl hpost
      exact hbusy (i :: pre) post rfl hpost

/-- In the first idle cycle after a packet whose headers have been sent whole, and after its body
has been cancelled, the counter still holds their length, and no request has its headers sent. -/
theorem not_emits_body {is : List In} (h : InHeader init c (headN p / 2) s) (hc : c.toNat ≤ 1)
    (hl : Live i) (hbusy : ∀ pre post, is = pre ++ post → post ≠ [] →
      ((machine p maskO).run (next true s i) pre).fsmIdleQ = false)
    (hacc : Accepted ((machine p maskO).run (next true s i) is) r) (hr : r.phyReadyI = true) :
    ¬ Emits maskO ((machine p maskO).run (next true s i) is) r := by
  have hN := headN_cases p
  have hcnt : (next true s i).headCntQ = s.headCntQ + 2 := by
    obtain ⟨hi, hh, _⟩ := codes_iff.1 h.codes
    simp [next, headCntEn, headCntNext, headCntRst, headCntAdd, hi, hh, hl.2]
  have hdata : Codes bit (next true s i) .data := by
    have hend : endHeadV s = true := by
      rw [h.endHeadV]
      exact decide_eq_true (by omega)
    have hnext := codes_next h.codes i
    rwa [Fsm.next, hl.1, hend] at hnext
  have hlen : ((2 : BitVec 6)).toNat = 2 := rfl
  rw [emits_iff (oneHot_run hdata.oneHot maskO is) hacc hr, headCntQ_run hdata (.inl rfl) hbusy,
    hcnt,
    h.cnt, BitVec.toNat_add, BitVec.toNat_add, BitVec.toNat_ofNat, hlen]
  omega

/-- Every request that is accepted in the cycles of `is` has its headers sent whole. -/
def HeadersSent (maskO : BitVec 2 → BitVec 2) (s : State p) (is : List In) : Prop :=
  ∀ pre i post, is = pre ++ i :: post → Accepted ((machine p maskO).run s pre) i →
    Emits maskO ((machine p maskO).run s pre) i

/-- In every run of the transmitter, with any requests and cancels, the headers of each request are
sent whole exactly if every request finds the counter cleared. -/
theorem headers_sent_iff (p : Params) (maskO : BitVec 2 → BitVec 2) (s₀ : State p) (i₀ : In)
    (is : List In) (hr : ∀ i ∈ is, i.phyReadyI = true) :
    HeadersSent maskO (reset s₀ i₀) is ↔
      (machine p maskO).Along
        (fun s i => Accepted s i → s.headCntQ.toNat ≤ 1) (reset s₀ i₀) is := by
  rw [HeadersSent, Mealy.along_iff]
  apply forall_congr'
  intro pre
  apply forall_congr'
  intro i
  apply forall_congr'
  intro post
  apply imp_congr_right
  intro hsplit
  apply imp_congr_right
  intro hacc
  have hmem : i ∈ is := by
    rw [hsplit]
    simp
  exact emits_iff (oneHot_run (oneHot_reset s₀ i₀) maskO pre) hacc (hr i hmem) maskO

def samplePacket : Transmission sampleParams := sample sampleParams rfl 0x2211 0x4433

theorem headers_sent_sample :
    HeadersSent lenToMask (reset (p := sampleParams) default default) samplePacket.cycles :=
  (headers_sent_iff sampleParams lenToMask default default samplePacket.cycles (by decide)).2
    (by decide +kernel)

/-- The packet again, with the request of the next one in the first idle cycle after it. -/
theorem headers_not_sent :
    (∀ i ∈ samplePacket.cycles ++ [samplePacket.request], i.phyReadyI = true) ∧
      ¬ HeadersSent lenToMask (reset (p := sampleParams) default default)
        (samplePacket.cycles ++ [samplePacket.request]) := by
  refine ⟨by decide, fun hsent => ?_⟩
  have hacc : Accepted
      ((machine sampleParams lenToMask).run (reset default default) samplePacket.cycles)
      samplePacket.request := by decide +kernel
  have hone := oneHot_run (oneHot_reset (p := sampleParams) default default) lenToMask
    samplePacket.cycles
  have hemits := hsent samplePacket.cycles samplePacket.request [] rfl hacc
  rw [emits_iff hone hacc rfl] at hemits
  exact absurd hemits (by decide +kernel)

end LowLatencyEthernet.EthTx
