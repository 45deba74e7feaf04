import LowLatencyEthernet.Beat.EthTx

namespace LowLatencyEthernet.EthTx
set_option autoImplicit true

open Sync Lfsr

variable {p : Params} {maskO : BitVec 2 → BitVec 2} {s : State p}

def wireBytes (ws : List Word) : List Byte := ws.flatMap fun w => [lane0 w, lane1 w]

/-- The bytes of a check sequence, the low one first. -/
def crcBytes (c : BitVec 32) : List Byte :=
  [c.extractLsb' 0 8, c.extractLsb' 8 8, c.extractLsb' 16 8, c.extractLsb' 24 8]

theorem wireBytes_append (vs ws : List Word) :
    wireBytes (vs ++ ws) = wireBytes vs ++ wireBytes ws := List.flatMap_append

theorem length_wireBytes (ws : List Word) : (wireBytes ws).length = 2 * ws.length := by
  induction ws with
  | nil => rfl
  | cons w ws ih =>
    rw [wireBytes] at ih
    rw [wireBytes, List.flatMap_cons, List.length_append, ih, List.length_cons]
    change 2 + 2 * ws.length = 2 * (ws.length + 1)
    omega

theorem drop_wireBytes (ws : List Word) (k : Nat) :
    (wireBytes ws).drop (2 * k) = wireBytes (ws.drop k) := by
  by_cases hk : k ≤ ws.length
  · conv => lhs; rw [← List.take_append_drop k ws]
    apply (congrArg (List.drop (2 * k)) (wireBytes_append _ _)).trans
    apply List.drop_left'
    rw [length_wireBytes, List.length_take, Nat.min_eq_left hk]
  · rw [List.drop_eq_nil_of_le (Nat.le_of_not_le hk), List.drop_eq_nil_of_le]
    · rfl
    · rw [length_wireBytes]
      omega

theorem wireBytes_cons (w : Word) (ws : List Word) :
    wireBytes (w :: ws) = lane0 w :: lane1 w :: wireBytes ws := rfl

theorem wireBytes_lanes (a b : Byte) : wireBytes [lanes a b] = [a, b] := by
  rw [wireBytes_cons, lane0_lanes, lane1_lanes]
  rfl

theorem wireBytes_extractLsb' (c : BitVec 32) (k : Nat) :
    wireBytes [c.extractLsb' k 16] = [c.extractLsb' k 8, c.extractLsb' (k + 8) 8] := by
  have h0 : lane0 (c.extractLsb' k 16) = c.extractLsb' k 8 := extractLsb'_field c (by decide)
  have h1 : lane1 (c.extractLsb' k 16) = c.extractLsb' (k + 8) 8 := extractLsb'_field c (by decide)
  rw [wireBytes_cons, h0, h1]
  rfl

theorem wireBytes_closing (hlen : len = 1 ∨ len = 2) (w : Word) (reg : BitVec 32) (x : Byte) :
    ∃ fill, fill.length ≤ 1 ∧
      wireBytes (closing len w reg x) = wordBytes w len ++ crcBytes reg ++ fill := by
  have hsplit (a b c : Word) :
      wireBytes [a, b, c] = wireBytes [a] ++ wireBytes [b] ++ wireBytes [c] := rfl
  rcases hlen with rfl | rfl
  · have hx : wireBytes [x ++ reg.extractLsb' 24 8] = [reg.extractLsb' 24 8, x] :=
      wireBytes_lanes _ _
    refine ⟨[x], Nat.le_refl 1, ?_⟩
    rw [closing, if_pos rfl, hsplit, wireBytes_lanes, wireBytes_extractLsb', hx]
    rfl
  · have hne : (2 : BitVec 2) ≠ 1 := by decide
    refine ⟨[], Nat.zero_le 1, ?_⟩
    rw [closing, if_neg hne, hsplit, wireBytes_extractLsb', wireBytes_extractLsb']
    rfl

def payloadLen (is : List In) : Nat :=
  (is.map fun i => if i.appLastI then i.appLenI.toNat else 2).sum

/-- The cycles of one packet, in which the PHY is ready and nothing is cancelled: idle ones, the
request, the headers, the payload and the footer. The application announces how many bytes follow
at some beat of the last block; each two that it announces beyond them make the footer a cycle
longer. -/
structure Transmission (p : Params) where
  idle : List In
  request : In
  head : List In
  front : List In
  last : In
  foot : List In
  excess : Nat
  live : ∀ i ∈ idle ++ request :: (head ++ front) ++ last :: foot, Live i
  idle_ne : idle ≠ []
  idle_quiet : ∀ i ∈ idle, i.appEarlyVI = false
  request_early : request.appEarlyVI = true
  head_length : 2 * head.length = headN p
  not_last : ∀ i ∈ head ++ front, i.appLastI = false
  last_last : last.appLastI = true
  last_len : last.appLenI = 1 ∨ last.appLenI = 2
  announced : ∃ before i after, front ++ [last] = before ++ i :: after ∧
    i.appLastBlockNextI = true ∧ (∀ j ∈ after, j.appLastBlockNextI = false) ∧
    i.appLastBlockNextLenI.toNat = payloadLen after + 2 * excess ∧
      payloadLen after + 2 * excess ≤ 10
  foot_length : foot.length = 2 + excess

namespace Transmission

def opening (t : Transmission p) : List In := t.idle ++ t.request :: (t.head ++ t.front)

def cycles (t : Transmission p) : List In := t.opening ++ t.last :: t.foot

def init (t : Transmission p) : BitVec (8 * headN p) := headInit p t.request

def frontWords (t : Transmission p) : List Word := headWords t.init ++ t.front.map In.appDataI

def reg (t : Transmission p) : BitVec 32 :=
  absorbWords (BitVec.allOnes 32) (t.frontWords.drop 3)

def payload (t : Transmission p) : List Byte :=
  wireBytes (t.front.map In.appDataI) ++ wordBytes t.last.appDataI t.last.appLenI

def allCycles (ts : List (Transmission p)) : List In := ts.flatMap cycles

end Transmission

theorem footCnt_append (n : BitVec 4) (is js : List In) :
    footCnt n (is ++ js) = footCnt (footCnt n is) js := List.foldl_append

theorem footCnt_quiet {is : List In} (h : ∀ i ∈ is, i.appLastBlockNextI = false) (n : BitVec 4) :
    footCnt n is = n - BitVec.ofNat 4 (2 * is.length) := by
  induction is generalizing n with
  | nil => exact (BitVec.sub_zero n).symm
  | cons i is ih =>
    have hi := h i List.mem_cons_self
    have hrest := ih (fun j hj => h j (List.mem_cons_of_mem _ hj)) (n - 2)
    have hstep : footCnt n (i :: is) = footCnt (n - 2) is := by
      simp [footCnt, hi]
    rw [hstep, hrest, List.length_cons, Nat.mul_succ, Nat.add_comm, BitVec.ofNat_add,
      BitVec.sub_sub]
    rfl

theorem payloadLen_append (is js : List In) :
    payloadLen (is ++ js) = payloadLen is + payloadLen js := by
  rw [payloadLen, List.map_append, List.sum_append]
  rfl

theorem payloadLen_full {is : List In} (h : ∀ i ∈ is, i.appLastI = false) :
    payloadLen is = 2 * is.length := by
  induction is with
  | nil => rfl
  | cons i is ih =>
    have hi := h i List.mem_cons_self
    have hrest := ih fun j hj => h j (List.mem_cons_of_mem _ hj)
    simp only [payloadLen, List.map_cons, List.sum_cons, hi] at hrest ⊢
    rw [hrest, List.length_cons]
    simp only [Bool.false_eq_true, ↓reduceIte]
    omega

theorem payloadLen_last (h : i.appLastI = true) : payloadLen [i] = i.appLenI.toNat := by
  simp [payloadLen, h]

namespace Transmission

variable (t : Transmission p)

theorem payloadLen_after (h : t.front ++ [t.last] = before ++ i :: after) :
    payloadLen after ≤ 2 * after.length ∧ 2 * after.length ≤ payloadLen after + 1 := by
  rcases List.eq_nil_or_concat after with rfl | ⟨init, l, rfl⟩
  · exact ⟨Nat.le_refl 0, Nat.zero_le 1⟩
  · rw [List.concat_eq_append] at h ⊢
    have hsplit : t.front ++ [t.last] = (before ++ i :: init) ++ [l] := by
      rw [h, List.append_assoc]
      rfl
    obtain ⟨hfront, hlast⟩ := List.append_inj' hsplit rfl
    obtain rfl := List.singleton_inj.1 hlast
    have hinit : payloadLen init = 2 * init.length := by
      apply payloadLen_full
      intro j hj
      apply t.not_last j
      rw [hfront]
      simp [hj]
    have hsum : payloadLen (init ++ [t.last]) = 2 * init.length + t.last.appLenI.toNat := by
      rw [payloadLen_append, hinit, payloadLen_last t.last_last]
    rw [hsum, List.length_append, List.length_singleton]
    rcases t.last_len with hl | hl <;> rw [hl]
    · change _ + 1 ≤ _ ∧ _ ≤ _ + 1 + 1
      omega
    · change _ + 2 ≤ _ ∧ _ ≤ _ + 2 + 1
      omega

theorem footCnt_eq (n : BitVec 4) :
    ((footCnt n (t.front ++ [t.last])).toNat + 1) / 2 = t.foot.length := by
  obtain ⟨before, i, after, hsplit, hi, hafter, hlen, hle⟩ := t.announced
  obtain ⟨h1, h2⟩ := t.payloadLen_after hsplit
  have hcnt : footCnt n (t.front ++ [t.last]) =
      footCntInit i - BitVec.ofNat 4 (2 * after.length) := by
    have hcons : footCnt (footCnt n before) (i :: after) = footCnt (footCntInit i) after := by
      simp [footCnt, hi]
    rw [hsplit, footCnt_append, hcons, footCnt_quiet hafter]
  have hinit : (footCntInit i).toNat = payloadLen after + 2 * t.excess + 4 := by
    rw [footCntInit, BitVec.toNat_add, hlen]
    change (_ + 4) % 16 = _
    omega
  have hsub : (BitVec.ofNat 4 (2 * after.length)).toNat = 2 * after.length := by
    rw [BitVec.toNat_ofNat]
    omega
  rw [hcnt, BitVec.toNat_sub_of_le (by rw [BitVec.le_def, hinit, hsub]; omega), hinit, hsub,
    t.foot_length]
  omega

end Transmission

theorem Idle.run {is : List In} (h : Idle s) (maskO : BitVec 2 → BitVec 2) (hne : is ≠ [])
    (hl : ∀ i ∈ is, Live i ∧ i.appEarlyVI = false) :
    Idle ((machine p maskO).run s is) ∧ ((machine p maskO).run s is).headCntQ = 0 ∧
      delivered (machine p maskO) port s is = [] := by
  induction is generalizing s with
  | nil => exact absurd rfl hne
  | cons i is ih =>
    obtain ⟨hlive, he⟩ := hl i List.mem_cons_self
    obtain ⟨hidle, hcnt⟩ := h.stay hlive he
    have hout : port ((machine p maskO).out s i) = none := h.silent
    rw [Mealy.run_cons, delivered_cons, hout]
    by_cases hnil : is = []
    · rw [hnil]
      exact ⟨hidle, hcnt, rfl⟩
    · exact ih hidle hnil fun j hj => hl j (List.mem_cons_of_mem _ hj)

namespace Transmission

theorem opened (t : Transmission p) (maskO : BitVec 2 → BitVec 2) (h : Idle s) :
    AtData t.reg ((machine p maskO).run s t.opening) ∧
      (∃ n, ((machine p maskO).run s t.opening).footCntQ = footCnt n t.front) ∧
      delivered (machine p maskO) port s t.opening = t.frontWords := by
  have hlive := t.live
  have hquiet := t.not_last
  simp only [List.mem_append, List.mem_cons] at hlive hquiet
  obtain ⟨hidle, hcnt, hsilent⟩ := h.run maskO t.idle_ne
    fun i hi => ⟨hlive i (.inl (.inl hi)), t.idle_quiet i hi⟩
  have hreq : port ((machine p maskO).out ((machine p maskO).run s t.idle) t.request) = none :=
    hidle.silent
  have hstart :
      AtHead t.init 1 ((machine p maskO).next ((machine p maskO).run s t.idle) t.request) :=
    hidle.request hcnt (hlive t.request (.inl (.inr (.inl rfl)))) t.request_early
  have hlength : 2 * (1 - 1 + t.head.length) = headN p := by
    rw [Nat.sub_self, Nat.zero_add]
    exact t.head_length
  obtain ⟨hhead, hheads⟩ := hstart.run maskO hlength
    fun i hi => ⟨hlive i (.inl (.inr (.inr (.inl hi)))), hquiet i (.inl hi)⟩
  have hbody (i : In) (hi : i ∈ t.front) : i.appCancelI = false ∧ i.appLastI = false :=
    ⟨(hlive i (.inl (.inr (.inr (.inr hi))))).1, hquiet i (.inr hi)⟩
  have hdata := hhead.run maskO hbody
  obtain ⟨_, hfoot, hfront⟩ := InData.run hhead.fsm maskO hbody
  have hreg : absorbWords (absorbWords (BitVec.allOnes 32) ((headWords t.init).drop 3))
      (t.front.map In.appDataI) = t.reg := by
    have h3 : 3 ≤ (headWords t.init).length := by
      rw [length_headWords]
      rcases headN_cases p with h | h <;> omega
    rw [Transmission.reg, frontWords, List.drop_append_of_le_length h3]
    exact List.foldl_append.symm
  rw [hreg] at hdata
  rw [opening, Mealy.run_append, Mealy.run_cons, Mealy.run_append, delivered_append,
    delivered_cons, delivered_append, hsilent, hreq, hheads, hfront]
  exact ⟨hdata, ⟨_, hfoot⟩, rfl⟩

theorem sent (t : Transmission p) (hmask : LenToMask maskO) (h : Idle s) :
    Idle ((machine p maskO).run s t.cycles) ∧ ∃ fill, fill.length = t.excess ∧
      delivered (machine p maskO) port s t.cycles =
        t.frontWords ++ closing t.last.appLenI t.last.appDataI t.reg t.last.x.crcRawShifted ++
          fill := by
  have hlive := t.live
  simp only [List.mem_append, List.mem_cons] at hlive
  obtain ⟨hdata, ⟨n, hn⟩, hfront⟩ := t.opened maskO h
  have hraw : crcRaw ((machine p maskO).run s t.opening) = t.reg := hdata.lfsr
  obtain ⟨c, hc, hlast⟩ := InData.last hmask hdata.fsm (hlive t.last (.inr (.inl rfl))).1
    t.last_last t.last_len
  rw [hraw] at hlast
  have hlast : (port ((machine p maskO).out ((machine p maskO).run s t.opening) t.last)).toList ++
      [c.extractLsb' 0 16, c.extractLsb' 16 16] = _ := hlast
  rw [hn, ← footCnt_append] at hc
  have hlen := t.foot_length
  obtain ⟨hidle, fill, hfill, hfoot⟩ := hc.halves maskO (fun i hi => (hlive i (.inr (.inr hi))).1)
    (t.footCnt_eq n) (by omega)
  have hfoot : delivered (machine p maskO) port ((machine p maskO).next
      ((machine p maskO).run s t.opening) t.last) t.foot = _ := hfoot
  rw [cycles, Mealy.run_append, Mealy.run_cons, delivered_append, delivered_cons, hfront, hfoot,
    ← hlast]
  refine ⟨hidle, fill, by omega, ?_⟩
  simp only [List.append_assoc, List.cons_append, List.nil_append]

theorem idle_after {ts : List (Transmission p)} (hmask : LenToMask maskO) (h : Idle s) :
    Idle ((machine p maskO).run s (allCycles ts)) := by
  induction ts generalizing s with
  | nil => exact h
  | cons t ts ih =>
    rw [allCycles, List.flatMap_cons, Mealy.run_append]
    exact ih (t.sent hmask h).1

end Transmission

theorem idle_reset (s : State p) (i : In) : Idle (reset s i) := ⟨rfl, rfl, rfl, rfl⟩

end LowLatencyEthernet.EthTx
