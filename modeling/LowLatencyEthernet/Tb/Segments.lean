import Mathlib.Data.List.GetD
import LowLatencyEthernet.Tb.TestVector

namespace LowLatencyEthernet.Tb
set_option autoImplicit true

def segWord : List Byte → Word
  | [] => 0
  | [a] => lanes a 0
  | a :: b :: _ => lanes a b

theorem or_shift (a b : Byte) :
    0 ||| a.setWidth 16 <<< (0 * 8) ||| b.setWidth 16 <<< (1 * 8) = lanes a b := by
  apply BitVec.eq_of_getLsbD_eq
  intro i hi
  rw [getLsbD_lanes]
  by_cases h : i < 8
  · simp [h, hi]
  · have ha : a.getLsbD i = false := BitVec.getLsbD_of_ge a i (Nat.le_of_not_lt h)
    simp [h, hi, ha]

theorem or_zero (a : Byte) : 0 ||| a.setWidth 16 <<< (0 * 8) = lanes a 0 := by
  have h := or_shift a 0
  simpa using h

theorem getNxtPktSeg_eq (h : pos < pkt.length) : getNxtPktSeg pkt pos =
    some (segWord (pkt.drop pos), BitVec.ofNat 8 (min 2 (pkt.length - pos)),
      pos + min 2 (pkt.length - pos)) := by
  have hne : pkt.length ≠ 0 := Nat.ne_of_gt (Nat.lt_of_le_of_lt (Nat.zero_le _) h)
  have hget : pkt.getD (pos + 0) 0 = pkt[pos] := by
    rw [Nat.add_zero, List.getD_eq_getElem _ _ h]
  have hdrop : pkt.drop pos = pkt[pos] :: pkt.drop (pos + 1) := List.drop_eq_getElem_cons h
  rw [getNxtPktSeg, if_pos ⟨hne, h⟩]
  by_cases h2 : pos + 1 < pkt.length
  · have hget' : pkt.getD (pos + 1) 0 = pkt[pos + 1] := List.getD_eq_getElem _ _ h2
    have hmin : min 2 (pkt.length - pos) = 2 := by omega
    have hloop : segLoop pkt pos dataWidthByte 0 0 = (lanes pkt[pos] pkt[pos + 1], 2) := by
      simp only [dataWidthByte, segLoop, Nat.add_zero, Nat.zero_add, if_pos h, if_pos h2]
      rw [hget', List.getD_eq_getElem _ _ h]
      exact congrArg (·, 2) (or_shift _ _)
    rw [hloop, hmin, hdrop, List.drop_eq_getElem_cons h2]
    rfl
  · have hmin : min 2 (pkt.length - pos) = 1 := by omega
    have hnil : pkt.drop (pos + 1) = [] := List.drop_eq_nil_of_le (by omega)
    have hloop : segLoop pkt pos dataWidthByte 0 0 = (lanes pkt[pos] 0, 1) := by
      simp only [dataWidthByte, segLoop, Nat.add_zero, Nat.zero_add, if_pos h, if_neg h2]
      rw [List.getD_eq_getElem _ _ h]
      exact congrArg (·, 1) (or_zero _)
    rw [hloop, hmin, hdrop, hnil]
    rfl

def segCount (len : Nat) : Nat := (len + 1) / 2

def segLen (len k : Nat) : Nat := min 2 (len - 2 * k)

theorem one_lt_segCount (h : 2 < len) : 1 < segCount len := by
  unfold segCount
  omega

theorem seg_lt (h : k < segCount len) : 2 * k < len := by
  unfold segCount at h
  omega

theorem loop_goes_on : 2 * k + dataWidthByte < len ↔ k + 1 < segCount len := by
  unfold segCount dataWidthByte
  omega

theorem segLen_full (h : k + 1 < segCount len) : segLen len k = 2 := by
  unfold segCount at h
  unfold segLen
  omega

theorem seg_next (h : k + 1 < segCount len) : 2 * k + segLen len k = 2 * (k + 1) := by
  rw [segLen_full h]
  rfl

theorem seg_last (h : k + 1 = segCount len) : 2 * k + segLen len k = len := by
  unfold segCount at h
  unfold segLen
  omega

theorem getNxtPktSeg_seg (h : k < segCount pkt.length) : getNxtPktSeg pkt (2 * k) =
    some (segWord (pkt.drop (2 * k)), BitVec.ofNat 8 (segLen pkt.length k),
      2 * k + segLen pkt.length k) :=
  getNxtPktSeg_eq (seg_lt h)

theorem inBeat_iff : inBeat e p = true ↔ p ≤ e ∧ e < p + 2 := by
  unfold inBeat dataWidthByte
  rw [Bool.or_eq_true, Bool.and_eq_true, beq_iff_eq, decide_eq_true_iff, decide_eq_true_iff]
  omega

/-- The error is in beat `k`. -/
theorem inBeat_even (e k : Nat) : inBeat e (2 * k) = decide (e / 2 = k) := by
  rw [Bool.eq_iff_iff, inBeat_iff, decide_eq_true_iff]
  omega

theorem inBeat_past (h : e < p) : inBeat e p = false := by
  rw [Bool.eq_false_iff, ne_eq, inBeat_iff]
  omega

/-- The state of beat `k`. Only the beats before the last one are ever in the error state. -/
def stateAt (len : Nat) (phyErr : Bool) (errPos k : Nat) : MacIntfE :=
  if k + 1 < segCount len ∧ phyErr = true ∧ errPos / 2 = k then .error
  else if k = 0 then .start
  else if k + 1 = segCount len then termState (segLen len k)
  else .data

def beatAt (pkt : List Byte) (phyErr : Bool) (errPos : Nat) (id : DebugId) (k : Nat) : MacIntf :=
  beatOf (stateAt pkt.length phyErr errPos k) (segWord (pkt.drop (2 * k)))
    (BitVec.ofNat 8 (segLen pkt.length k)) id

section

variable {pkt : List Byte} {phyErr : Bool} {errPos : Nat} {id : DebugId}

theorem setState_even (s : MacIntfE) (k : Nat) :
    setState (some s) (2 * k) phyErr errPos .error =
      some (if phyErr = true ∧ errPos / 2 = k then .error else s) := by
  rw [setState, inBeat_even]
  cases phyErr <;> by_cases h : errPos / 2 = k <;> simp [h]

theorem segLen_cases (h : k < segCount len) : segLen len k = 1 ∨ segLen len k = 2 := by
  unfold segCount at h
  unfold segLen
  omega

theorem fill_stateAt (hk : k < segCount len) (phyErr : Bool) (errPos : Nat) (id : DebugId)
    (w : Word) : fillMacIntf (stateAt len phyErr errPos k) w (BitVec.ofNat 8 (segLen len k)) id =
      some (beatOf (stateAt len phyErr errPos k) w (BitVec.ofNat 8 (segLen len k)) id) := by
  unfold stateAt
  split
  · exact fillMacIntf_eq nofun nofun nofun
  split
  · exact fillMacIntf_eq nofun nofun nofun
  split
  · rcases segLen_cases hk with hl | hl <;> rw [hl] <;> rfl
  · exact fillMacIntf_eq nofun nofun nofun

theorem map_range_add (f : Nat → α) (k n : Nat) :
    (List.range (n + 1)).map (fun j => f (k + j)) =
      f k :: (List.range n).map fun j => f (k + 1 + j) := by
  rw [List.range_succ_eq_map, List.map_cons, List.map_map, Nat.add_zero]
  apply congrArg (f k :: ·)
  apply List.map_congr_left
  intro j _
  exact congrArg f (by omega)

theorem map_range_succ (f : Nat → α) (n : Nat) :
    f 0 :: (List.range n).map (fun j => f (1 + j)) = (List.range (n + 1)).map f := by
  have hadd := map_range_add f 0 n
  simp only [Nat.zero_add] at hadd
  exact hadd.symm

theorem dataLoop_eq (hk : 1 ≤ k) (hn : k < segCount pkt.length)
    (hf : segCount pkt.length ≤ fuel + k) :
    dataLoop pkt phyErr errPos id fuel (2 * k) =
      some ((List.range (segCount pkt.length - 1 - k)).map fun j =>
        beatAt pkt phyErr errPos id (k + j), 2 * (segCount pkt.length - 1)) := by
  induction fuel generalizing k with
  | zero => omega
  | succ fuel ih =>
    rw [dataLoop]
    by_cases hlt : k + 1 < segCount pkt.length
    · have hstate : (if phyErr = true ∧ errPos / 2 = k then MacIntfE.error else .data) =
          stateAt pkt.length phyErr errPos k := by
        have h0 : k ≠ 0 := by omega
        have hne : k + 1 ≠ segCount pkt.length := by omega
        simp [stateAt, hlt, h0, hne]
      have hfill := fill_stateAt hn phyErr errPos id (segWord (pkt.drop (2 * k)))
      have hrest := ih (Nat.le_succ_of_le hk) hlt (by omega)
      have hcount : segCount pkt.length - 1 - k = segCount pkt.length - 1 - (k + 1) + 1 := by omega
      rw [if_pos (loop_goes_on.2 hlt), setState_even, hstate, getNxtPktSeg_seg hn, seg_next hlt]
      simp only [Option.bind_eq_bind, Option.bind_some, hfill, hrest]
      rw [hcount, map_range_add]
      rfl
    · have hlast : k = segCount pkt.length - 1 := by omega
      have hnil : segCount pkt.length - 1 - k = 0 := by omega
      rw [if_neg (mt loop_goes_on.1 hlt), hnil, ← hlast]
      rfl

theorem map_range_ends (f : Nat → α) (hn : 2 ≤ n) :
    f 0 :: (List.range (n - 1 - 1)).map (fun j => f (1 + j)) ++ [f (n - 1)] =
      (List.range n).map f := by
  obtain ⟨m, rfl⟩ := Nat.exists_eq_add_of_le' hn
  have hfront : (List.range (m + 2 - 1)).map f =
      f 0 :: (List.range (m + 2 - 1 - 1)).map fun j => f (1 + j) := (map_range_succ f m).symm
  rw [← hfront, List.range_succ, List.map_append]
  rfl

theorem toNat_segLen (h : k < segCount len) :
    (BitVec.ofNat 8 (segLen len k)).toNat = segLen len k := by
  rcases segLen_cases h with hl | hl <;> rw [hl] <;> rfl

theorem getMacTerm_segLen (h : k < segCount len) :
    getMacTerm (segLen len k) = some (termState (segLen len k)) := by
  have hl := segLen_cases h
  exact getMacTerm_eq (by omega) (by omega)

theorem setState_past (he : phyErr = true → errPos < p) (s : Option MacIntfE) :
    setState s p phyErr errPos .error = s := by
  cases hp : phyErr with
  | false => rfl
  | true =>
    rw [setState, inBeat_past (he hp)]
    rfl

theorem stateAt_last (hn : 2 ≤ segCount len) (phyErr : Bool) (errPos : Nat) :
    stateAt len phyErr errPos (segCount len - 1) = termState (segLen len (segCount len - 1)) := by
  have h0 : segCount len - 1 ≠ 0 := by omega
  have hlast : segCount len - 1 + 1 = segCount len := by omega
  simp [stateAt, h0, hlast]

theorem packetBeats_eq (h : 2 < pkt.length) (he : phyErr = true → errPos < pkt.length) :
    packetBeats pkt phyErr errPos id =
      some ((List.range (segCount pkt.length)).map (beatAt pkt phyErr errPos id), pkt.length) := by
  have hn : 1 < segCount pkt.length := one_lt_segCount h
  have hn' : segCount pkt.length ≤ pkt.length := by
    unfold segCount
    omega
  have hfirst : (if phyErr = true ∧ errPos / 2 = 0 then MacIntfE.error else .start) =
      stateAt pkt.length phyErr errPos 0 := by simp [stateAt, hn]
  have hlen : BitVec.ofNat 8 dataWidthByte = BitVec.ofNat 8 (segLen pkt.length 0) := by
    rw [segLen_full hn]
    rfl
  have hloop : dataLoop pkt phyErr errPos id pkt.length (2 * 1) = _ :=
    dataLoop_eq (Nat.le_refl 1) hn (Nat.le_succ_of_le hn')
  have hk : segCount pkt.length - 1 < segCount pkt.length := by omega
  have hend : 2 * (segCount pkt.length - 1) + segLen pkt.length (segCount pkt.length - 1) =
      pkt.length := seg_last (by omega)
  have hterm : setState (getMacTerm (BitVec.ofNat 8 (segLen pkt.length
      (segCount pkt.length - 1))).toNat) pkt.length phyErr errPos .error =
        some (stateAt pkt.length phyErr errPos (segCount pkt.length - 1)) := by
    rw [setState_past he, toNat_segLen hk, getMacTerm_segLen hk, stateAt_last (by omega)]
  rw [packetBeats, setState_even .start 0, hfirst, getNxtPktSeg_seg (Nat.zero_lt_of_lt hn), hlen,
    seg_next hn]
  simp only [Option.bind_eq_bind, Option.bind_some, fill_stateAt (Nat.zero_lt_of_lt hn), hloop,
    getNxtPktSeg_seg hk, hend, hterm, fill_stateAt hk]
  rw [← map_range_ends _ hn]
  rfl

end

def idleAt (idle : Nat → BitVec 8) (k : Nat) : MacIntf :=
  if (idle k).toNat % phyErrIdleRate = 0 then beatOf .error 0 0 0 else zeroMacIntf

theorem idleLoop_eq (idle : Nat → BitVec 8) (hf : cnt.toNat < fuel) :
    idleLoop idle fuel k cnt =
      some ((List.range ((cnt.toNat + 1) / 2)).map fun j => idleAt idle (k + j)) := by
  induction fuel generalizing k cnt with
  | zero => omega
  | succ fuel ih =>
    rw [idleLoop]
    by_cases hpos : cnt > 0
    · have hnext : (cnt - (dataWidthByte : Int)).toNat = cnt.toNat - 2 := by
        unfold dataWidthByte
        omega
      have hrest : idleLoop idle fuel (k + 1) (cnt - (dataWidthByte : Int)) = _ := ih (by omega)
      have hcount : (cnt.toNat + 1) / 2 = (cnt.toNat - 2 + 1) / 2 + 1 := by omega
      have hfill : fillMacIntf (if (idle k).toNat % phyErrIdleRate == 0 then .error else .invalid)
          0 0 0 = some (idleAt idle k) := by
        unfold idleAt
        by_cases h : (idle k).toNat % phyErrIdleRate = 0 <;> simp [h] <;> rfl
      rw [hnext] at hrest
      rw [if_pos hpos]
      simp only [Option.bind_eq_bind, hfill, Option.bind_some, hrest]
      rw [hcount, map_range_add]
    · have hzero : (cnt.toNat + 1) / 2 = 0 := by omega
      rw [if_neg hpos, hzero]
      rfl

theorem idleBeats_eq (idle : Nat → BitVec 8) (pos : Nat) : idleBeats idle pos =
    some ((List.range (((idleCnt pos).toNat + 1) / 2)).map (idleAt idle)) := by
  have hloop := idleLoop_eq idle (k := 0) (Nat.lt_succ_self (idleCnt pos).toNat)
  simp only [Nat.zero_add] at hloop
  exact hloop

def transStateAt (len k : Nat) : TransDataState :=
  if k = 0 then .start else if k + 1 = segCount len then .term else .data

def transAt (data : List Byte) (id : DebugId) (k : Nat) : TransData :=
  ⟨BitVec.ofNat 8 (segLen data.length k), segWord (data.drop (2 * k)),
    transStateAt data.length k, id⟩

/-- How many segments are pushed when the error is at byte `errPos` of the payload: the one with the
error and the one before it are skipped, and an error in the first one is not found. -/
def pushed (len : Nat) (tErr : Bool) (errPos : Nat) : Nat :=
  if tErr = true ∧ 2 ≤ errPos ∧ errPos ≤ len + 1 then errPos / 2 - 1 else segCount len

section

variable {data : List Byte} {tErr : Bool} {tErrPos : Int} {id : DebugId}

theorem skip_iff : skipTransPayload p tErr tErrPos = true ↔
    tErr = true ∧ p ≤ toSize tErrPos ∧ toSize tErrPos < p + 2 := by
  rw [skipTransPayload, Bool.and_eq_true, inBeat_iff]

theorem skip_even : skipTransPayload (2 * k) tErr tErrPos = true ↔
    tErr = true ∧ toSize tErrPos / 2 = k := by
  rw [skipTransPayload, Bool.and_eq_true, inBeat_even, decide_eq_true_iff]

theorem fill_full (h : k + 1 < segCount len) (state : TransDataState) (w : Word) :
    fillTransData (BitVec.ofNat 8 dataWidthByte) w state id =
      some ⟨BitVec.ofNat 8 (segLen len k), w, state, id⟩ := by
  rw [segLen_full h]
  exact fillTransData_eq (Nat.le_refl 2)

theorem transLoop_step (hk : k ≠ 0) (hlt : k + 1 < segCount data.length) (fuel : Nat) :
    transLoop data tErr tErrPos id (fuel + 1) (2 * k) =
      if tErr = true ∧ toSize tErrPos / 2 = k + 1 then some ([], none)
      else (transLoop data tErr tErrPos id fuel (2 * (k + 1))).map fun r =>
        (transAt data id k :: r.1, r.2) := by
  have hstate : TransDataState.data = transStateAt data.length k := by
    have hne : k + 1 ≠ segCount data.length := Nat.ne_of_lt hlt
    simp [transStateAt, hk, hne]
  rw [transLoop, if_pos (loop_goes_on.2 hlt), getNxtPktSeg_seg (Nat.lt_of_succ_lt hlt),
    seg_next hlt]
  simp only [Option.bind_eq_bind, Option.bind_some, fill_full hlt, skip_even]
  rw [hstate]
  congr 1
  cases transLoop data tErr tErrPos id fuel (2 * (k + 1)) <;> rfl

theorem transLoop_end (hlast : k + 1 = segCount data.length) (fuel : Nat) :
    transLoop data tErr tErrPos id (fuel + 1) (2 * k) = some ([], some (2 * k)) := by
  have hge : ¬ k + 1 < segCount data.length := by omega
  rw [transLoop, if_neg (mt loop_goes_on.1 hge)]

/-- The loop is left with the segment before that of the error. -/
theorem transLoop_skip (he : tErr = true) (hk : k ≠ 0) (hle : k + 1 ≤ toSize tErrPos / 2)
    (hlt : toSize tErrPos / 2 < segCount data.length) (hf : segCount data.length ≤ fuel + k) :
    transLoop data tErr tErrPos id fuel (2 * k) =
      some ((List.range (toSize tErrPos / 2 - 1 - k)).map fun j => transAt data id (k + j),
        none) := by
  induction fuel generalizing k with
  | zero => omega
  | succ fuel ih =>
    rw [transLoop_step hk (Nat.lt_of_le_of_lt hle hlt)]
    by_cases hskip : toSize tErrPos / 2 = k + 1
    · have hnil : toSize tErrPos / 2 - 1 - k = 0 := by omega
      rw [if_pos ⟨he, hskip⟩, hnil]
      rfl
    · have hcount : toSize tErrPos / 2 - 1 - k = toSize tErrPos / 2 - 1 - (k + 1) + 1 := by omega
      rw [if_neg fun h => hskip h.2, ih (Nat.succ_ne_zero k) (by omega) (by omega), hcount,
        map_range_add]
      rfl

theorem transLoop_all (hk : k ≠ 0) (hn : k < segCount data.length)
    (he : tErr = true →
      ¬ (k + 1 ≤ toSize tErrPos / 2 ∧ toSize tErrPos / 2 < segCount data.length))
    (hf : segCount data.length ≤ fuel + k) :
    transLoop data tErr tErrPos id fuel (2 * k) =
      some ((List.range (segCount data.length - 1 - k)).map fun j => transAt data id (k + j),
        some (2 * (segCount data.length - 1))) := by
  induction fuel generalizing k with
  | zero => omega
  | succ fuel ih =>
    by_cases hlt : k + 1 < segCount data.length
    · have hskip : ¬ (tErr = true ∧ toSize tErrPos / 2 = k + 1) :=
        fun h => he h.1 ⟨by omega, by omega⟩
      have hcount : segCount data.length - 1 - k = segCount data.length - 1 - (k + 1) + 1 := by
        omega
      have hrest := ih (Nat.succ_ne_zero k) hlt (fun h hc => he h ⟨by omega, hc.2⟩) (by omega)
      rw [transLoop_step hk hlt, if_neg hskip, hrest, hcount, map_range_add]
      rfl
    · have hlast : k = segCount data.length - 1 := by omega
      have hnil : segCount data.length - 1 - k = 0 := by omega
      rw [transLoop_end (by omega), hnil, ← hlast]
      rfl

theorem pushed_first (he : tErr = true) (h : 2 < len) (h1 : errPos / 2 = 1) :
    pushed len tErr errPos = 0 := by
  have h2 : 2 ≤ errPos := by omega
  have hmax : errPos ≤ len + 1 := by omega
  rw [pushed, if_pos ⟨he, h2, hmax⟩, h1]

theorem pushed_middle (he : tErr = true) (hle : 2 ≤ errPos / 2) (hlt : errPos / 2 < segCount len) :
    pushed len tErr errPos = errPos / 2 - 1 - 1 + 1 := by
  unfold segCount at hlt
  have h2 : 2 ≤ errPos := by omega
  have hmax : errPos ≤ len + 1 := by omega
  rw [pushed, if_pos ⟨he, h2, hmax⟩]
  omega

/-- The error is found once all is read: the last segment is dropped alone. -/
theorem pushed_last (he : tErr = true) (h : 2 < len) (hle : len ≤ errPos) (hlt : errPos < len + 2)
    (hout : ¬ (1 ≤ errPos / 2 ∧ errPos / 2 < segCount len)) :
    pushed len tErr errPos = segCount len - 1 - 1 + 1 := by
  unfold segCount at hout ⊢
  have h2 : 2 ≤ errPos := by omega
  have hmax : errPos ≤ len + 1 := by omega
  rw [pushed, if_pos ⟨he, h2, hmax⟩]
  omega

theorem pushed_all (hout : tErr = true → ¬ (1 ≤ errPos / 2 ∧ errPos / 2 < segCount len))
    (hlast : ¬ (tErr = true ∧ len ≤ errPos ∧ errPos < len + 2)) :
    pushed len tErr errPos = segCount len := by
  rw [pushed, if_neg]
  rintro ⟨he, hlow, hhigh⟩
  have hge := hout he
  unfold segCount at hge
  exact hlast ⟨he, by omega, by omega⟩

theorem fill_term (h : k + 1 = segCount len) (h0 : k ≠ 0) (w : Word) :
    fillTransData (BitVec.ofNat 8 (segLen len k)) w .term id =
      some ⟨BitVec.ofNat 8 (segLen len k), w, transStateAt len k, id⟩ := by
  have hstate : transStateAt len k = .term := by simp [transStateAt, h0, h]
  rw [hstate]
  exact fillTransData_eq (Nat.min_le_left _ _)

theorem transSegments_eq (h : 2 < data.length) : transSegments data tErr tErrPos id =
    some ((List.range (pushed data.length tErr (toSize tErrPos))).map (transAt data id)) := by
  have hn : 1 < segCount data.length := one_lt_segCount h
  have hn' : segCount data.length ≤ data.length := by
    unfold segCount
    omega
  have hk : segCount data.length - 1 < segCount data.length := by omega
  have hend : 2 * (segCount data.length - 1) + segLen data.length (segCount data.length - 1) =
      data.length := seg_last (by omega)
  have hfirst : TransDataState.start = transStateAt data.length 0 := rfl
  rw [transSegments, getNxtPktSeg_seg (Nat.zero_lt_of_lt hn), seg_next hn]
  simp only [Option.bind_eq_bind, Option.bind_some, fill_full hn, skip_even]
  -- The error is found after the first segment, in the loop, after the last segment or not at all.
  by_cases h1 : tErr = true ∧ toSize tErrPos / 2 = 1
  · rw [if_pos h1, pushed_first h1.1 h h1.2]
    rfl
  rw [if_neg h1]
  by_cases h2 : tErr = true ∧ 2 ≤ toSize tErrPos / 2 ∧
      toSize tErrPos / 2 < segCount data.length
  · obtain ⟨he, hle, hlt⟩ := h2
    rw [transLoop_skip he Nat.one_ne_zero hle hlt (Nat.le_succ_of_le hn'),
      pushed_middle he hle hlt, ← map_range_succ]
    rfl
  have hout (he : tErr = true) :
      ¬ (1 ≤ toSize tErrPos / 2 ∧ toSize tErrPos / 2 < segCount data.length) := by
    rintro ⟨hlow, hlt⟩
    rcases Nat.eq_or_lt_of_le hlow with heq | hle
    · exact h1 ⟨he, heq.symm⟩
    · exact h2 ⟨he, hle, hlt⟩
  rw [transLoop_all Nat.one_ne_zero hn (fun he hc => hout he ⟨Nat.le_of_succ_le hc.1, hc.2⟩)
    (Nat.le_succ_of_le hn')]
  simp only [Option.bind_some, getNxtPktSeg_seg hk, hend, skip_iff,
    fill_term (Nat.sub_add_cancel (Nat.le_of_lt hn)) (Nat.sub_ne_zero_of_lt hn)]
  by_cases h3 : tErr = true ∧ data.length ≤ toSize tErrPos ∧ toSize tErrPos < data.length + 2
  · obtain ⟨he, hle, hlt⟩ := h3
    rw [if_pos ⟨he, hle, hlt⟩, pushed_last he h hle hlt (hout he), ← map_range_succ]
    rfl
  · rw [if_neg h3, pushed_all hout h3,
      ← map_range_ends (transAt data id) hn]
    rfl

end

def packetOf (lib : EthLib ε) (node : ε) (d : Draws) : List Byte :=
  lib.writeEthPacket (lib.updateEthPacketData node d.data)

def beatsOf (lib : EthLib ε) (tv : Tv ε) (node : ε) (d : Draws) : List MacIntf :=
  (List.range (segCount (packetOf lib node d).length)).map
    (beatAt (packetOf lib node d) d.hasErr (d.errAt (packetOf lib node d).length) (tv.pktId + 1))

def idlesOf (lib : EthLib ε) (node : ε) (d : Draws) : List MacIntf :=
  (List.range (((idleCnt (packetOf lib node d).length).toNat + 1) / 2)).map (idleAt d.idle)

/-- How many segments of the payload a packet pushes. -/
def pushedOf (lib : EthLib ε) (node : ε) (d : Draws) : Nat :=
  let headLen := lib.getHeadLen (lib.updateEthPacketData node d.data)
  let errPos := d.errAt (packetOf lib node d).length
  pushed d.data.length (transErr headLen d.hasErr errPos) (toSize (transErrPos headLen errPos))

def transOf (lib : EthLib ε) (tv : Tv ε) (nodeId : Nat) (node : ε) (d : Draws) : List TransData :=
  if nodeId ≤ 1 then (List.range (pushedOf lib node d)).map (transAt d.data (tv.pktId + 1)) else []

theorem genNewPkt_eq (lib : EthLib ε) (tv : Tv ε) (d : Draws) (hnode : tv.eth[nodeId]? = some node)
    (hlen : 2 < (packetOf lib node d).length) :
    genNewPkt lib tv nodeId d = some
      { eth := tv.eth.setIfInBounds nodeId (lib.updateEthPacketData node d.data)
        macFifo := tv.macFifo ++ (beatsOf lib tv node d ++ idlesOf lib node d)
        dataFifo := tv.dataFifo ++ transOf lib tv nodeId node d
        pktId := tv.pktId + 1 } := by
  have hle : nodeId ≤ nodeCnt := by
    obtain ⟨hlt, -⟩ := Vector.getElem?_eq_some_iff.1 hnode
    exact Nat.le_of_lt hlt
  have hdata : 2 < d.data.length := Nat.lt_of_lt_of_le (by decide) d.long
  have herr : d.errAt (packetOf lib node d).length < (packetOf lib node d).length :=
    Nat.mod_lt _ (Nat.lt_trans (by decide) hlen)
  have hbeats : packetBeats (packetOf lib node d) d.hasErr (d.errAt (packetOf lib node d).length)
      (tv.pktId + 1) = some (beatsOf lib tv node d, _) := packetBeats_eq hlen fun _ => herr
  have hidles : idleBeats d.idle (packetOf lib node d).length = some (idlesOf lib node d) :=
    idleBeats_eq _ _
  have hpkt : lib.writeEthPacket (lib.updateEthPacketData node d.data) = packetOf lib node d := rfl
  rw [genNewPkt, if_pos hle, hnode]
  simp only [Option.bind_eq_bind, Option.bind_some, hpkt, hbeats, hidles]
  by_cases hacc : nodeId ≤ 1
  · rw [if_pos hacc, transOf, if_pos hacc, transSegments_eq hdata]
    rfl
  · rw [if_neg hacc, transOf, if_neg hacc]

end LowLatencyEthernet.Tb
