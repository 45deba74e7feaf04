import LowLatencyEthernet.Arith.OnesComplement
import LowLatencyEthernet.Beat.Ipv4Rx

namespace LowLatencyEthernet.Ipv4Rx
set_option autoImplicit true

open Sync OnesComplement

def beats (ws : List Word) (len : BitVec 2) : List Beat :=
  ws.mapIdx fun j w => ⟨decide (j = 0), w, if j + 1 = ws.length then len else 2⟩

def ihl (ws : List Word) : BitVec 4 := (ws.headD 0).extractLsb' 0 4

def totLen (ws : List Word) : BitVec 16 := swapLanes (ws.getD 1 0)

def headWords (ws : List Word) : Nat := max 2 (2 * (ihl ws).toNat)

def packetWords (ws : List Word) : Nat := max (headWords ws + 1) (((totLen ws).toNat + 1) / 2)

/-- The running sum over header words, which leaves the checksum field out. -/
def csAcc (ws : List Word) : Acc 16 := ((ws.eraseIdx 5).map swapLanes).foldl Acc.add Acc.zero

/-- The checks that header words have failed. Of an address only the upper half is compared, and
only once the word after it is there. -/
def filtered (p : Params) (ws : List Word) : Bool :=
  ws[0]?.any (fun w => w.extractLsb' 4 4 != version) ||
    ws[3]?.any (fun w => w.extractLsb' 5 3 != fragFlag) ||
    ws[4]?.any (fun w => lane1 w != p.protocol) ||
    (p.matchSrcAddr && ws.dropLast[6]?.any (fun w => p.srcAddr.extractLsb' 16 16 != w)) ||
    (p.matchDstAddr && ws.dropLast[8]?.any (fun w => p.dstAddr.extractLsb' 16 16 != w))

/-- The registers of a header after its first words. -/
def headOf (p : Params) (ws : List Word) : Head where
  cnt := BitVec.ofNat 16 (2 * ws.length)
  ihl := ihl ws
  sum := (csAcc ws).low
  carry := (csAcc ws).carry
  drop := filtered p ws
  srcMiss := ws[6]?.any (fun w => p.srcAddr.extractLsb' 16 16 != w)
  dstMiss := ws[8]?.any (fun w => p.dstAddr.extractLsb' 16 16 != w)

@[simp] theorem headOf_cnt : (headOf p ws).cnt = BitVec.ofNat 16 (2 * ws.length) := rfl

@[simp] theorem headOf_ihl : (headOf p ws).ihl = ihl ws := rfl

@[simp] theorem headOf_drop : (headOf p ws).drop = filtered p ws := rfl

theorem headOf_first (p : Params) (w : Word) : Head.first ⟨true, w, 2⟩ = headOf p [w] := by
  simp [Head.first, headOf, ihl, csAcc, filtered, Acc.zero_add]

/-- The six counter bits the checks look at tell the header words apart. -/
theorem idx_headOf {c : BitVec 6} (hk : ws.length < 32) (j : Nat) (hc : c.toNat = 2 * j) :
    (headOf p ws).idx = c ↔ ws.length = j := by
  rw [← BitVec.toNat_inj, hc]
  simp only [Head.idx, headOf, BitVec.extractLsb'_toNat, BitVec.toNat_ofNat, Nat.shiftRight_zero]
  omega

theorem idx_headOf_odd {c : BitVec 6} (j : Nat) (hc : c.toNat = 2 * j + 1) :
    (headOf p ws).idx ≠ c := by
  intro h
  rw [← BitVec.toNat_inj, hc] at h
  simp only [Head.idx, headOf, BitVec.extractLsb'_toNat, BitVec.toNat_ofNat,
    Nat.shiftRight_zero] at h
  omega

theorem ihl_snoc (hne : ws ≠ []) (w : Word) : ihl (ws ++ [w]) = ihl ws := by
  cases ws with
  | nil => exact absurd rfl hne
  | cons a ws => rfl

theorem head_add (h : Head) (w : Word) :
    (⟨(h.add ⟨false, w, l⟩).extractLsb' 0 16, (h.add ⟨false, w, l⟩).getLsbD 16⟩ : Acc 16) =
      (⟨h.sum, h.carry⟩ : Acc 16).add (swapLanes w) := by
  have hs := h.sum.isLt
  have hw := (swapLanes w).isLt
  have hn : (h.add ⟨false, w, l⟩).toNat = h.sum.toNat + (swapLanes w).toNat + h.carry.toNat := by
    cases hc : h.carry <;> simp [Head.add, hc] <;> omega
  apply Acc.ext
  · apply BitVec.eq_of_toNat_eq
    rw [BitVec.extractLsb'_toNat, hn, Acc.add, Acc.toNat_add_ofBool, BitVec.toNat_add]
    simp
  · change (h.add ⟨false, w, l⟩).getLsbD 16 = BitVec.carry 16 h.sum (swapLanes w) h.carry
    have hc := h.carry.toNat_le
    rw [Acc.carry_eq, BitVec.getLsbD, Nat.testBit_eq_decide_div_mod_eq, hn]
    exact decide_eq_decide.2 (by omega)

theorem csAcc_snoc (ws : List Word) (w : Word) :
    csAcc (ws ++ [w]) = if ws.length = 5 then csAcc ws else (csAcc ws).add (swapLanes w) := by
  rcases Nat.lt_trichotomy ws.length 5 with h | h | h
  · have h1 : ws.eraseIdx 5 = ws := List.eraseIdx_of_length_le (by omega)
    have h2 : (ws ++ [w]).eraseIdx 5 = ws ++ [w] := List.eraseIdx_of_length_le (by simp; omega)
    simp [csAcc, h1, h2, Nat.ne_of_lt h]
  · have h1 : ws.eraseIdx 5 = ws := List.eraseIdx_of_length_le (by omega)
    have h2 : (ws ++ [w]).eraseIdx 5 = ws := by
      rw [List.eraseIdx_append_of_length_le (by omega), h]
      simp
    simp [csAcc, h1, h2, h]
  · have h2 : (ws ++ [w]).eraseIdx 5 = ws.eraseIdx 5 ++ [w] :=
      List.eraseIdx_append_of_lt_length (by omega) _
    simp [csAcc, h2, Nat.ne_of_gt h]

theorem any_snoc (ws : List Word) (w : Word) (j : Nat) (f : Word → Bool) :
    (ws ++ [w])[j]?.any f = (ws[j]?.any f || (decide (ws.length = j) && f w)) := by
  rcases Nat.lt_trichotomy ws.length j with h | h | h
  · have h1 : (ws ++ [w])[j]? = none := List.getElem?_eq_none (by simp; omega)
    have h2 : ws[j]? = none := List.getElem?_eq_none (Nat.le_of_lt h)
    simp [h1, h2, Nat.ne_of_lt h]
  · simp [h]
  · simp [List.getElem?_append, h, Nat.ne_of_gt h]

theorem filtered_snoc (hne : ws ≠ []) (w : Word) :
    filtered p (ws ++ [w]) = (filtered p ws ||
      (decide (ws.length = 3) && (w.extractLsb' 5 3 != fragFlag)) ||
      (decide (ws.length = 4) && (lane1 w != p.protocol)) ||
      (p.matchSrcAddr && ws[6]?.any (fun w => p.srcAddr.extractLsb' 16 16 != w)) ||
      (p.matchDstAddr && ws[8]?.any (fun w => p.dstAddr.extractLsb' 16 16 != w))) := by
  have h0 : ws.length ≠ 0 := fun h => hne (List.length_eq_zero_iff.1 h)
  -- an address that already counted against the shorter header is still there
  have hprev (j : Nat) (f : Word → Bool) :
      (ws.dropLast[j]?.any f || ws[j]?.any f) = ws[j]?.any f := by
    rw [List.getElem?_dropLast]
    split <;> simp
  simp only [filtered, any_snoc, List.dropLast_concat, h0, decide_false, Bool.false_and,
    Bool.or_false]
  conv_lhs => rw [← hprev 6, ← hprev 8]
  simp only [Bool.and_or_distrib_left]
  ac_rfl

theorem fails_headOf (hk : ws.length < 32) (w : Word) :
    (headOf p ws).fails p ⟨false, w, 2⟩ =
      ((decide (ws.length = 3) && (w.extractLsb' 5 3 != fragFlag)) ||
      (decide (ws.length = 4) && (lane1 w != p.protocol)) ||
      (p.matchSrcAddr && ws[6]?.any (fun w => p.srcAddr.extractLsb' 16 16 != w)) ||
      (p.matchDstAddr && ws[8]?.any (fun w => p.dstAddr.extractLsb' 16 16 != w))) := by
  have h6 : ((headOf p ws).idx == 6) = decide (ws.length = 3) := by
    rw [Bool.beq_eq_decide_eq, decide_eq_decide, idx_headOf hk 3 rfl]
  have h8 : ((headOf p ws).idx == 8) = decide (ws.length = 4) := by
    rw [Bool.beq_eq_decide_eq, decide_eq_decide, idx_headOf hk 4 rfl]
  have h13 : ((headOf p ws).idx == 13) = false :=
    beq_eq_false_iff_ne.2 (idx_headOf_odd 6 rfl)
  have h17 : ((headOf p ws).idx == 17) = false :=
    beq_eq_false_iff_ne.2 (idx_headOf_odd 8 rfl)
  have hsrc : (headOf p ws).srcMiss = ws[6]?.any (p.srcAddr.extractLsb' 16 16 != ·) := rfl
  have hdst : (headOf p ws).dstMiss = ws[8]?.any (p.dstAddr.extractLsb' 16 16 != ·) := rfl
  simp only [Head.fails, h6, h8, h13, h17, hsrc, hdst, Bool.false_and, Bool.or_false]

theorem headOf_snoc (hk : ws.length < 32) (hne : ws ≠ []) (w : Word) :
    (headOf p ws).next p ⟨false, w, 2⟩ = headOf p (ws ++ [w]) := by
  have hacc := head_add (l := 2) (headOf p ws) w
  have h10 : (headOf p ws).idx = 10 ↔ ws.length = 5 := idx_headOf hk 5 rfl
  have h12 : (headOf p ws).idx = 12 ↔ ws.length = 6 := idx_headOf hk 6 rfl
  have h16 : (headOf p ws).idx = 16 ↔ ws.length = 8 := idx_headOf hk 8 rfl
  apply Head.ext
  · simp [Head.next, headOf, Nat.mul_add, BitVec.ofNat_add]
  · exact (ihl_snoc hne w).symm
  · have hlow := congrArg Acc.low hacc
    change _ = (csAcc (ws ++ [w])).low
    rw [Head.next, csAcc_snoc]
    by_cases hl : ws.length = 5
    · simp only [if_pos (h10.2 hl), if_pos hl]
      rfl
    · simp only [if_neg (mt h10.1 hl), if_neg hl]
      exact hlow
  · have hcarry := congrArg Acc.carry hacc
    change _ = (csAcc (ws ++ [w])).carry
    rw [Head.next, csAcc_snoc]
    by_cases hl : ws.length = 5
    · simp only [if_pos (h10.2 hl), if_pos hl]
      rfl
    · simp only [if_neg (mt h10.1 hl), if_neg hl]
      exact hcarry
  · change (filtered p ws || (headOf p ws).fails p _) = filtered p (ws ++ [w])
    rw [fails_headOf hk, filtered_snoc hne]
    simp only [Bool.or_assoc]
  · change (if (headOf p ws).idx = 12 then _ else ws[6]?.any _) = (ws ++ [w])[6]?.any _
    rw [any_snoc]
    by_cases hl : ws.length = 6
    · simp [hl, h12.2 hl]
    · rw [if_neg (mt h12.1 hl)]
      simp [hl]
  · change (if (headOf p ws).idx = 16 then _ else ws[8]?.any _) = (ws ++ [w])[8]?.any _
    rw [any_snoc]
    by_cases hl : ws.length = 8
    · simp [hl, h16.2 hl]
    · rw [if_neg (mt h16.1 hl)]
      simp [hl]

end LowLatencyEthernet.Ipv4Rx
