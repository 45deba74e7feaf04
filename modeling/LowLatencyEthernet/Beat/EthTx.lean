import LowLatencyEthernet.Sync.Follows
import LowLatencyEthernet.Rtl.CrcSerial
import LowLatencyEthernet.Rtl.EthTx

namespace LowLatencyEthernet.EthTx
set_option autoImplicit true

open Sync Lfsr

variable {p : Params} {maskO : BitVec 2 → BitVec 2} {s : State p} {init : BitVec (8 * headN p)}

/-- What is sent in the cycles that are not idle. -/
def port (o : Out) : Option Word := if o.phyIdleO then none else some o.phyDataO

def headWords (init : BitVec (8 * headN p)) : List Word :=
  (List.range (headN p / 2)).map fun k => init.extractLsb' (16 * k) 16

/-- The register after words, the high lane of each first. -/
def absorbWords (reg : BitVec 32) (ws : List Word) : BitVec 32 := ws.foldl (absorb Crc.poly) reg

def Live (i : In) : Prop := i.appCancelI = false ∧ i.phyReadyI = true

def Idle (s : State p) : Prop :=
  s.fsmIdleQ = true ∧ s.fsmHeadQ = false ∧ s.fsmDataQ = false ∧ s.fsmFootQ = false

/-- The cycle that sends word `k - 1` of the headers. -/
structure AtHead (init : BitVec (8 * headN p)) (k : Nat) (s : State p) : Prop where
  fsm : s.fsmIdleQ = false ∧ s.fsmHeadQ = true ∧ s.fsmDataQ = false ∧ s.fsmFootQ = false
  pos : 1 ≤ k
  le : 2 * k ≤ headN p
  cnt : s.headCntQ = BitVec.ofNat 6 (2 * k)
  shift : ∀ i, i + 16 * (k - 1) < 8 * headN p →
    s.headQ.getLsbD i = init.getLsbD (i + 16 * (k - 1))
  lfsr : 5 ≤ k →
    s.crcTx.lfsrQ = absorbWords (BitVec.allOnes 32) (((headWords init).take (k - 1)).drop 3)

/-- A cycle that sends payload, the register of the check being `reg`. -/
structure AtData (reg : BitVec 32) (s : State p) : Prop where
  fsm : s.fsmIdleQ = false ∧ s.fsmHeadQ = false ∧ s.fsmDataQ = true ∧ s.fsmFootQ = false
  cnt : s.headCntQ ≠ macPreN
  lfsr : s.crcTx.lfsrQ = reg

/-- A cycle that sends the low half of `c`, `n` being the counter. -/
structure AtFoot (c : BitVec 32) (n : BitVec 4) (s : State p) : Prop where
  fsm : s.fsmIdleQ = false ∧ s.fsmHeadQ = false ∧ s.fsmDataQ = false ∧ s.fsmFootQ = true
  crc : s.crcQ = c
  cnt : s.footCntQ = n

theorem headN_cases (p : Params) : headN p = 54 ∨ headN p = 50 := by
  cases hv : p.vlanTag with
  | true => simp [headN, MacHeadTx.headN, macParams, hv]
  | false => simp [headN, MacHeadTx.headN, macParams, hv]

theorem length_headWords (init : BitVec (8 * headN p)) :
    (headWords init).length = headN p / 2 := by
  rw [headWords, List.length_map, List.length_range]

theorem getElem?_headWords (init : BitVec (8 * headN p)) (hk : 2 * k < headN p) :
    (headWords init)[k]? = some (init.extractLsb' (16 * k) 16) := by
  have hlt : k < headN p / 2 := by
    rcases headN_cases p with h | h <;> omega
  rw [headWords, List.getElem?_map, List.getElem?_range hlt]
  rfl

theorem Idle.silent (h : Idle s) : port (out maskO s i) = none := by
  obtain ⟨_, hh, hd, hf⟩ := h
  simp [port, out, dataV, hh, hd, hf]

theorem headCntQ_quiet (hi : s.fsmIdleQ = true) (he : i.appEarlyVI = false) :
    (next true s i).headCntQ = 0 := by
  simp [next, headCntEn, headCntNext, headCntRst, hi, he]

theorem Idle.stay (h : Idle s) (hl : Live i) (he : i.appEarlyVI = false) :
    Idle (next true s i) ∧ (next true s i).headCntQ = 0 := by
  obtain ⟨hi, hh, hd, hf⟩ := h
  obtain ⟨hc, hr⟩ := hl
  constructor
  · simp [Idle, next, fsmIdleNext, fsmHeadNext, fsmDataNext, fsmFootNext, hi, hh, hd, hf, hc, he]
  · exact headCntQ_quiet hi he

theorem Idle.request (h : Idle s) (h0 : s.headCntQ = 0) (hl : Live i) (he : i.appEarlyVI = true) :
    AtHead (headInit p i) 1 (next true s i) := by
  obtain ⟨hi, hh, hd, hf⟩ := h
  obtain ⟨hc, hr⟩ := hl
  refine ⟨?_, Nat.le_refl 1, ?_, ?_, ?_, ?_⟩
  · simp [next, fsmIdleNext, fsmHeadNext, fsmDataNext, fsmFootNext, hi, hh, hd, hf, hc, he]
  · rcases headN_cases p with h | h <;> omega
  · simp [next, headCntEn, headCntNext, headCntRst, headCntAdd, hi, he, hr, h0]
  · intro j hj
    simp [next, headNext, headRst, hi, he]
  · intro h5
    exact absurd h5 (by decide)

/-- The register of the headers has moved on by `k` words. -/
def Shifted (init : BitVec (8 * headN p)) (k : Nat) (s : State p) : Prop :=
  ∀ j, j + 16 * k < 8 * headN p → s.headQ.getLsbD j = init.getLsbD (j + 16 * k)

theorem Shifted.next (h : Shifted init k s) (hi : s.fsmIdleQ = false) :
    Shifted init (k + 1) (EthTx.next true s i) := by
  intro j hj
  have hshift := h (j + 16) (by omega)
  have hidx : j + 16 + 16 * k = j + 16 * (k + 1) := by omega
  have hlt : j < 8 * headN p - 16 := by omega
  have hlt' : j < 8 * headN p := by omega
  have hrst : headRst s i = false := by simp [headRst, hi]
  rw [hidx] at hshift
  simp only [EthTx.next, clock, settle, headNext, hrst, Bool.false_eq_true, ↓reduceIte]
  rw [BitVec.getLsbD_setWidth, BitVec.getLsbD_append, if_pos hlt, BitVec.getLsbD_extractLsb',
    Nat.add_comm 16 j, hshift, decide_eq_true hlt, decide_eq_true hlt']
  rfl

theorem Shifted.word (h : Shifted init k s) (hk : 2 * k < headN p) :
    headData s = init.extractLsb' (16 * k) 16 := by
  apply BitVec.eq_of_getLsbD_eq
  intro j hj
  have heven := headN_cases p
  have hshift := h j (by omega)
  rw [headData, BitVec.getLsbD_extractLsb', BitVec.getLsbD_extractLsb', Nat.zero_add, hshift,
    Nat.add_comm]

theorem AtHead.word (h : AtHead init k s) : headData s = init.extractLsb' (16 * (k - 1)) 16 := by
  have hpos := h.pos
  have hle := h.le
  have hshift : Shifted init (k - 1) s := h.shift
  exact hshift.word (by omega)

theorem AtHead.mem (h : AtHead init k s) : (headWords init)[k - 1]? = some (headData s) := by
  have hpos := h.pos
  have hle := h.le
  rw [h.word]
  exact getElem?_headWords init (by omega)

theorem AtHead.sends (h : AtHead init k s) : port (out maskO s i) = some (headData s) := by
  obtain ⟨_, hh, hd, hf⟩ := h.fsm
  simp [port, out, dataV, data, gated, hh, hd, hf]

theorem AtHead.toNat_cnt (h : AtHead init k s) : s.headCntQ.toNat = 2 * k := by
  have hle := h.le
  rw [h.cnt, BitVec.toNat_ofNat]
  rcases headN_cases p with hN | hN <;> omega

theorem AtHead.crcIn_valid (h : AtHead init k s) (h4 : 4 ≤ k) (i : In) :
    (crcIn s i).validI = true := by
  obtain ⟨_, hh, _, _⟩ := h.fsm
  have hge : s.headCntQ ≥ macPreN := by
    rw [ge_iff_le, BitVec.le_def, h.toNat_cnt]
    change 8 ≤ 2 * k
    omega
  simp [crcIn, crcDataV, hh, hge]

theorem AtHead.crcIn_start (h : AtHead init k s) (i : In) :
    (crcIn s i).startI = decide (k = 4) := by
  have hiff : s.headCntQ = macPreN ↔ k = 4 := by
    rw [← BitVec.toNat_inj, h.toNat_cnt]
    change 2 * k = 8 ↔ k = 4
    omega
  rw [crcIn, crcStartV, ← decide_eq_decide.2 hiff]
  rfl

/-- The register starts over one beat early, with word 3. -/
theorem AtHead.lfsr_taken (h : AtHead init k s) (h4 : 4 ≤ k) (i : In) :
    Crc.lfsr s.crcTx (crcIn s i) =
      absorbWords (BitVec.allOnes 32) (((headWords init).take (k - 1)).drop 3) := by
  rw [Crc.lfsr, h.crcIn_start]
  by_cases he : k = 4
  · subst he
    rw [decide_eq_true rfl, if_pos rfl]
    have hnil : ((headWords init).take 3).drop 3 = [] :=
      List.drop_eq_nil_of_le (List.length_take_le 3 _)
    rw [hnil]
    rfl
  · rw [decide_eq_false he, if_neg Bool.false_ne_true]
    exact h.lfsr (by omega)

theorem AtHead.take_eq (h : AtHead init k s) :
    (headWords init).take k = (headWords init).take (k - 1) ++ [headData s] := by
  have hget := h.mem
  have hpos := h.pos
  have hk : k = k - 1 + 1 := by omega
  conv => lhs; rw [hk]
  rw [List.take_add_one, hget]
  rfl

theorem AtHead.drop_eq (h : AtHead init k s) :
    (headWords init).drop (k - 1) = headData s :: (headWords init).drop k := by
  obtain ⟨hlt, hget⟩ := List.getElem?_eq_some_iff.1 h.mem
  rw [List.drop_eq_getElem_cons hlt, hget, Nat.sub_add_cancel h.pos]

theorem AtHead.reg_next (h : AtHead init k s) (hl : i.appLastI = false) (h4 : 4 ≤ k) :
    (Crc.next s.crcTx (crcIn s i)).lfsrQ =
      absorbWords (BitVec.allOnes 32) (((headWords init).take k).drop 3) := by
  obtain ⟨_, hh, hd, _⟩ := h.fsm
  have hlen : (crcIn s i).lenI = 2 := by simp [crcIn, crcDataLen, hl]
  have hdata : (crcIn s i).dataI = headData s := by simp [crcIn, crcData, gated, hh, hd]
  have hlong : 3 ≤ ((headWords init).take (k - 1)).length := by
    have hlt := (List.getElem?_eq_some_iff.1 h.mem).1
    rw [List.length_take]
    omega
  rw [Crc.lfsrQ_full (h.crcIn_valid h4 i) hlen, hdata, h.lfsr_taken h4, h.take_eq,
    List.drop_append_of_le_length hlong, absorbWords, absorbWords, List.foldl_append]
  rfl

theorem AtHead.endHeadV (h : AtHead init k s) : endHeadV s = decide (headN p ≤ 2 * k) := by
  rw [EthTx.endHeadV, h.toNat_cnt]

theorem AtHead.step (h : AtHead init k s) (hl : Live i) (ho : i.appLastI = false)
    (hk : 2 * k < headN p) : AtHead init (k + 1) (next true s i) := by
  obtain ⟨hi, hh, hd, hf⟩ := h.fsm
  obtain ⟨hc, hr⟩ := hl
  have hpos := h.pos
  have hend : EthTx.endHeadV s = false := by
    rw [h.endHeadV]
    exact decide_eq_false (by omega)
  have heven := headN_cases p
  refine ⟨?_, by omega, by omega, ?_, ?_, ?_⟩
  · simp [next, fsmIdleNext, fsmHeadNext, fsmDataNext, fsmFootNext, hi, hh, hd, hf, hc, hend]
  · have hadd : BitVec.ofNat 6 (2 * k) + 2#6 = BitVec.ofNat 6 (2 * (k + 1)) :=
      (BitVec.ofNat_add (2 * k) 2).symm
    simp [next, headCntEn, headCntNext, headCntRst, headCntAdd, hi, hh, hr, h.cnt, hadd]
  · have hshift : Shifted init (k - 1) s := h.shift
    have hk' : k - 1 + 1 = k + 1 - 1 := by omega
    rw [← hk']
    exact hshift.next hi
  · intro h5
    exact h.reg_next ho (by omega)

theorem AtHead.finish (h : AtHead init k s) (hl : Live i) (ho : i.appLastI = false)
    (hk : 2 * k = headN p) :
    AtData (absorbWords (BitVec.allOnes 32) ((headWords init).drop 3)) (next true s i) := by
  obtain ⟨hi, hh, hd, hf⟩ := h.fsm
  obtain ⟨hc, hr⟩ := hl
  have hend : EthTx.endHeadV s = true := by
    rw [h.endHeadV]
    exact decide_eq_true (by omega)
  refine ⟨?_, ?_, ?_⟩
  · simp [next, fsmIdleNext, fsmHeadNext, fsmDataNext, fsmFootNext, hi, hh, hd, hf, hc, hend]
  · have hcnt : (next true s i).headCntQ = s.headCntQ + 2 := by
      simp [next, headCntEn, headCntNext, headCntRst, headCntAdd, hi, hh, hr]
    have hN := h.toNat_cnt
    rw [hcnt, Ne, ← BitVec.toNat_inj, BitVec.toNat_add, hN, hk]
    change ¬ (headN p + 2) % 64 = 8
    rcases headN_cases p with h | h <;> omega
  · have hN := headN_cases p
    have hreg := h.reg_next ho (by omega)
    have hall : (headWords init).take k = headWords init := by
      apply List.take_of_length_le
      rw [length_headWords]
      omega
    rw [hall] at hreg
    exact hreg

theorem AtHead.run {is : List In} (h : AtHead init k s) (maskO : BitVec 2 → BitVec 2)
    (hlen : 2 * (k - 1 + is.length) = headN p) (hl : ∀ i ∈ is, Live i ∧ i.appLastI = false) :
    AtData (absorbWords (BitVec.allOnes 32) ((headWords init).drop 3))
        ((machine p maskO).run s is) ∧
      delivered (machine p maskO) port s is = (headWords init).drop (k - 1) := by
  induction is generalizing s k with
  | nil =>
    have hle := h.le
    have hpos := h.pos
    simp only [List.length_nil] at hlen
    omega
  | cons i is ih =>
    obtain ⟨hlive, ho⟩ := hl i List.mem_cons_self
    have hpos := h.pos
    rw [Mealy.run_cons, delivered_cons, h.drop_eq]
    have hword : port ((machine p maskO).out s i) = some (headData s) := h.sends
    rw [hword]
    by_cases hk : 2 * k = headN p
    · have hnil : is = [] := by
        apply List.eq_nil_of_length_eq_zero
        rw [List.length_cons] at hlen
        omega
      have hend : (headWords init).drop k = [] := by
        apply List.drop_eq_nil_of_le
        rw [length_headWords]
        omega
      rw [hnil, hend]
      exact ⟨h.finish hlive ho hk, rfl⟩
    · rw [List.length_cons] at hlen
      have hle := h.le
      obtain ⟨hdata, hsent⟩ := ih (h.step hlive ho (by omega)) (by omega)
        fun j hj => hl j (List.mem_cons_of_mem _ hj)
      refine ⟨hdata, ?_⟩
      have hsent : delivered (machine p maskO) port ((machine p maskO).next s i) is =
          (headWords init).drop k := hsent
      rw [hsent]
      rfl

/-- The footer counter after cycles that send payload. -/
def footCnt (n : BitVec 4) (is : List In) : BitVec 4 :=
  is.foldl (fun n i => if i.appLastBlockNextI then footCntInit i else n - 2) n

def InData (s : State p) : Prop :=
  s.fsmIdleQ = false ∧ s.fsmHeadQ = false ∧ s.fsmDataQ = true ∧ s.fsmFootQ = false

theorem InData.next (h : InData s) (hc : i.appCancelI = false) (ho : i.appLastI = false) :
    InData (EthTx.next true s i) := by
  obtain ⟨hi, hh, hd, hf⟩ := h
  simp [InData, EthTx.next, fsmIdleNext, fsmHeadNext, fsmDataNext, fsmFootNext, hi, hh, hd, hf,
    hc, ho]

theorem InData.footCntNext (h : InData s) :
    EthTx.footCntNext s i = footCnt s.footCntQ [i] := by
  simp [EthTx.footCntNext, footCnt, footCntRst, footCntDec, h.2.2.1]

theorem InData.sends (h : InData s) (ho : i.appLastI = false) :
    port (out maskO s i) = some i.appDataI := by
  obtain ⟨hi, hh, hd, hf⟩ := h
  simp [port, out, dataV, data, gated, hh, hd, hf, ho]

theorem InData.run {is : List In} (h : InData s) (maskO : BitVec 2 → BitVec 2)
    (hl : ∀ i ∈ is, i.appCancelI = false ∧ i.appLastI = false) :
    InData ((machine p maskO).run s is) ∧
      ((machine p maskO).run s is).footCntQ = footCnt s.footCntQ is ∧
      delivered (machine p maskO) port s is = is.map In.appDataI := by
  induction is generalizing s with
  | nil => exact ⟨h, rfl, rfl⟩
  | cons i is ih =>
    obtain ⟨hc, ho⟩ := hl i List.mem_cons_self
    obtain ⟨hdata, hfoot, hsent⟩ := ih (h.next hc ho)
      fun j hj => hl j (List.mem_cons_of_mem _ hj)
    have hcnt : footCnt (EthTx.next true s i).footCntQ is = footCnt s.footCntQ (i :: is) := by
      have hnext : (EthTx.next true s i).footCntQ = footCnt s.footCntQ [i] := h.footCntNext
      rw [hnext]
      rfl
    have hout : port ((machine p maskO).out s i) = some i.appDataI := h.sends ho
    have hsent : delivered (machine p maskO) port ((machine p maskO).next s i) is =
        is.map In.appDataI := hsent
    refine ⟨hdata, hfoot.trans hcnt, ?_⟩
    rw [delivered_cons, hout, hsent]
    rfl

theorem AtData.reg_next (h : AtData reg s) (ho : i.appLastI = false) :
    (Crc.next s.crcTx (crcIn s i)).lfsrQ = absorb Crc.poly reg i.appDataI := by
  obtain ⟨_, hh, hd, _⟩ := h.fsm
  have hval : (crcIn s i).validI = true := by simp [crcIn, crcDataV, hd]
  have hlen : (crcIn s i).lenI = 2 := by simp [crcIn, crcDataLen, ho]
  have hstart : (crcIn s i).startI = false := by simp [crcIn, crcStartV, h.cnt]
  have hdata : (crcIn s i).dataI = i.appDataI := by simp [crcIn, crcData, gated, hh, hd]
  rw [Crc.lfsrQ_full hval hlen, hdata, Crc.lfsr, hstart, if_neg Bool.false_ne_true, h.lfsr]

theorem AtData.step (h : AtData reg s) (hc : i.appCancelI = false) (ho : i.appLastI = false) :
    AtData (absorb Crc.poly reg i.appDataI) (next true s i) := by
  have hdata : InData s := h.fsm
  obtain ⟨hi, hh, _, _⟩ := h.fsm
  refine ⟨hdata.next hc ho, ?_, h.reg_next ho⟩
  simpa [next, headCntEn, hi, hh] using h.cnt

theorem AtData.run {is : List In} (h : AtData reg s) (maskO : BitVec 2 → BitVec 2)
    (hl : ∀ i ∈ is, i.appCancelI = false ∧ i.appLastI = false) :
    AtData (absorbWords reg (is.map In.appDataI)) ((machine p maskO).run s is) := by
  induction is generalizing s reg with
  | nil => exact h
  | cons i is ih =>
    obtain ⟨hc, ho⟩ := hl i List.mem_cons_self
    exact ih (h.step hc ho) fun j hj => hl j (List.mem_cons_of_mem _ hj)

/-- What `len_to_mask` is for. -/
def LenToMask (maskO : BitVec 2 → BitVec 2) : Prop :=
  ∀ (len : BitVec 2) (i : Nat), i < 2 → (maskO len).getLsbD i = decide (i < len.toNat)

/-- The last beat of payload and the words after it, `reg` being the register of the check and `x`
the byte that fills up the last word. -/
def closing (len : BitVec 2) (w : Word) (reg : BitVec 32) (x : Byte) : List Word :=
  if len = 1 then
    [lanes (lane0 w) (reg.extractLsb' 0 8), reg.extractLsb' 8 16, x ++ reg.extractLsb' 24 8]
  else [w, reg.extractLsb' 0 16, reg.extractLsb' 16 16]

theorem InData.last (hmask : LenToMask maskO) (h : InData s) (hc : i.appCancelI = false)
    (ho : i.appLastI = true) (hlen : i.appLenI = 1 ∨ i.appLenI = 2) :
    ∃ c, AtFoot c (footCnt s.footCntQ [i]) (EthTx.next true s i) ∧
      (port (out maskO s i)).toList ++ [c.extractLsb' 0 16, c.extractLsb' 16 16] =
        closing i.appLenI i.appDataI (crcRaw s) i.x.crcRawShifted := by
  obtain ⟨hi, hh, hd, hf⟩ := id h
  generalize hraw : crcRaw s = reg
  refine ⟨crcRawShifted s i, ⟨?_, ?_, h.footCntNext⟩, ?_⟩
  · simp [EthTx.next, fsmIdleNext, fsmHeadNext, fsmDataNext, fsmFootNext, hi, hh, hd, hf, hc, ho]
  · simp [EthTx.next, crcNext, crcRst, hd, ho]
  · have hout : port (out maskO s i) = some (dataLast (maskO i.appLenI) s i) := by
      simp [port, out, dataV, data, gated, hh, hd, hf, ho]
    have h0 : (maskO i.appLenI).getLsbD 0 = decide (0 < i.appLenI.toNat) := hmask _ 0 (by decide)
    have h1 : (maskO i.appLenI).getLsbD 1 = decide (1 < i.appLenI.toNat) := hmask _ 1 (by decide)
    rw [hout, dataLast, h0, h1, dataLastCrcShifted, crcRawShifted, hraw]
    rcases hlen with hlen | hlen
    · -- the low byte of the register goes out with the last byte of payload
      have hlow : (i.x.crcRawShifted ++ reg.extractLsb' 8 24).extractLsb' 0 16 =
          reg.extractLsb' 8 16 := by
        rw [BitVec.extractLsb'_append_eq_of_add_le (by decide), extractLsb'_field _ (by decide)]
      have hhigh := extractLsb'_append_high (m := 8) (a := 16) (b := 8) i.x.crcRawShifted
        (reg.extractLsb' 8 24)
      rw [extractLsb'_field _ (by decide)] at hhigh
      rw [hlen, if_pos rfl, if_pos rfl, hlow, hhigh, lane1_append]
      rfl
    · have hne : (2 : BitVec 2) ≠ 1 := by decide
      have h0 : decide (0 < (2 : BitVec 2).toNat) = true := by decide
      have h1 : decide (1 < (2 : BitVec 2).toNat) = true := by decide
      rw [hlen, if_neg hne, if_neg hne, if_pos rfl, if_pos rfl, h0, h1, if_pos rfl, if_pos rfl,
        lanes_lane i.appDataI]
      rfl

theorem AtFoot.sends (h : AtFoot c n s) : port (out maskO s i) = some (c.extractLsb' 0 16) := by
  obtain ⟨hi, hh, hd, hf⟩ := h.fsm
  simp [port, out, dataV, data, dataFoot, gated, hh, hd, hf, h.crc]

theorem AtFoot.step (h : AtFoot c n s) (hc : i.appCancelI = false) (hn : 2 < n.toNat) :
    AtFoot (i.x.crcNext ++ c.extractLsb' 16 16) (n - 2) (next true s i) := by
  obtain ⟨hi, hh, hd, hf⟩ := h.fsm
  have hend : endFootV s = false := by simp [endFootV, h.cnt, BitVec.lt_def, hn]
  refine ⟨?_, ?_, ?_⟩
  · simp [next, fsmIdleNext, fsmHeadNext, fsmDataNext, fsmFootNext, hi, hh, hd, hf, hc, hend]
  · simp [next, crcNext, crcRst, hd, h.crc]
  · simp [next, footCntNext, footCntRst, footCntDec, hd, h.cnt]

theorem AtFoot.finish (h : AtFoot c n s) (hc : i.appCancelI = false) (hn : n.toNat ≤ 2) :
    Idle (next true s i) := by
  obtain ⟨hi, hh, hd, hf⟩ := h.fsm
  have hend : endFootV s = true := by simp [endFootV, h.cnt, BitVec.lt_def, hn]
  simp [Idle, next, fsmIdleNext, fsmHeadNext, fsmDataNext, fsmFootNext, hi, hh, hd, hf, hc, hend]

theorem AtFoot.run {is : List In} (h : AtFoot c n s) (maskO : BitVec 2 → BitVec 2)
    (hl : ∀ i ∈ is, i.appCancelI = false) (hne : is ≠ []) (hn : (n.toNat + 1) / 2 = is.length) :
    Idle ((machine p maskO).run s is) ∧ ∃ rest, rest.length + 1 = is.length ∧
      delivered (machine p maskO) port s is = c.extractLsb' 0 16 :: rest := by
  induction is generalizing s c n with
  | nil => exact absurd rfl hne
  | cons i is ih =>
    have hcan := hl i List.mem_cons_self
    have hout : port ((machine p maskO).out s i) = some (c.extractLsb' 0 16) := h.sends
    rw [Mealy.run_cons, delivered_cons, hout]
    rw [List.length_cons] at hn
    by_cases h2 : n.toNat ≤ 2
    · have hnil : is = [] := List.eq_nil_of_length_eq_zero (by omega)
      rw [hnil]
      exact ⟨h.finish hcan h2, [], rfl, rfl⟩
    · have hsub : (n - 2).toNat = n.toNat - 2 :=
        BitVec.toNat_sub_of_le (by rw [BitVec.le_def]; change 2 ≤ n.toNat; omega)
      have hne' : is ≠ [] := by
        rintro rfl
        rw [List.length_nil] at hn
        omega
      obtain ⟨hidle, rest, hrest, hsent⟩ := ih (h.step hcan (by omega))
        (fun j hj => hl j (List.mem_cons_of_mem _ hj)) hne' (by omega)
      exact ⟨hidle, _ :: rest, congrArg (· + 1) hrest, congrArg (_ :: ·) hsent⟩

theorem AtFoot.halves {is : List In} (h : AtFoot c n s) (maskO : BitVec 2 → BitVec 2)
    (hl : ∀ i ∈ is, i.appCancelI = false) (hn : (n.toNat + 1) / 2 = is.length)
    (h2 : 2 ≤ is.length) :
    Idle ((machine p maskO).run s is) ∧ ∃ rest, rest.length + 2 = is.length ∧
      delivered (machine p maskO) port s is =
        c.extractLsb' 0 16 :: c.extractLsb' 16 16 :: rest := by
  cases is with
  | nil => exact absurd h2 (by decide)
  | cons i is =>
    rw [List.length_cons] at hn h2
    have hcan := hl i List.mem_cons_self
    have hout : port ((machine p maskO).out s i) = some (c.extractLsb' 0 16) := h.sends
    have hsub : (n - 2).toNat = n.toNat - 2 :=
      BitVec.toNat_sub_of_le (by rw [BitVec.le_def]; change 2 ≤ n.toNat; omega)
    have hnext := h.step hcan (by omega)
    obtain ⟨hidle, rest, hrest, hsent⟩ := hnext.run maskO
      (fun j hj => hl j (List.mem_cons_of_mem _ hj)) (List.ne_nil_of_length_pos (by omega))
      (by omega)
    have hhigh : (i.x.crcNext ++ c.extractLsb' 16 16).extractLsb' 0 16 = c.extractLsb' 16 16 := by
      rw [BitVec.extractLsb'_append_eq_of_add_le (Nat.le_refl 16), BitVec.extractLsb'_eq_self]
    rw [hhigh] at hsent
    refine ⟨hidle, rest, congrArg (· + 1) hrest, ?_⟩
    rw [delivered_cons, hout]
    exact congrArg (_ :: ·) hsent

end LowLatencyEthernet.EthTx
