import Mathlib.Data.List.Induction
import LowLatencyEthernet.Beat.Headers

namespace LowLatencyEthernet.Ipv4Rx
set_option autoImplicit true

open Sync OnesComplement

def header (ws : List Word) : List Word := ws.take (headWords ws)

def headCsAfter (hc : BitVec 16) (ws : List Word) : BitVec 16 :=
  if 6 ≤ ws.length then swapLanes (ws.getD 5 0) else hc

def totLenAfter (tl : BitVec 16) (ws : List Word) : BitVec 16 :=
  if 2 ≤ ws.length then totLen ws - 2 else tl

/-- The checksum field of a header differs from the complement of its sum. -/
def corrupt (hc : BitVec 16) (hd : List Word) : Bool := ~~~(csAcc hd).total != headCsAfter hc hd

def readerAt (p : Params) (tl hc : BitVec 16) (ws : List Word) : Reader where
  totLen := totLenAfter tl ws
  headCs := headCsAfter hc (header ws)
  phase :=
    if ws = [] then .idle
    else if ws.length < headWords ws then .head (headOf p ws)
    else if ws.length < packetWords ws then
      .data (BitVec.ofNat 16 (2 * ws.length)) (corrupt hc (header ws))
        (filtered p (header ws) || (corrupt hc (header ws) && decide (headWords ws < ws.length)))
        (decide (ws.length = headWords ws))
    else .idle

theorem headWords_snoc (hne : ws ≠ []) (w : Word) : headWords (ws ++ [w]) = headWords ws := by
  rw [headWords, headWords, ihl_snoc hne]

theorem two_le_headWords (ws : List Word) : 2 ≤ headWords ws := Nat.le_max_left _ _

theorem headWords_le (ws : List Word) : headWords ws ≤ 30 := by
  have h := (ihl ws).isLt
  rw [headWords]
  omega

theorem totLen_snoc (h2 : 2 ≤ ws.length) (w : Word) : totLen (ws ++ [w]) = totLen ws := by
  simp [totLen, List.getElem?_append_left h2]

theorem packetWords_snoc (h2 : 2 ≤ ws.length) (w : Word) :
    packetWords (ws ++ [w]) = packetWords ws := by
  have hne : ws ≠ [] := List.ne_nil_of_length_pos (by omega)
  rw [packetWords, packetWords, headWords_snoc hne, totLen_snoc h2]

theorem headWords_lt_packetWords (ws : List Word) : headWords ws < packetWords ws :=
  Nat.le_max_left _ _

theorem packetWords_le (ws : List Word) : packetWords ws ≤ 32768 := by
  have h1 := headWords_le ws
  have h2 := (totLen ws).isLt
  rw [packetWords]
  omega

theorem header_snoc (hk : headWords ws ≤ ws.length) (w : Word) :
    header (ws ++ [w]) = header ws := by
  have h2 := two_le_headWords ws
  have hne : ws ≠ [] := List.ne_nil_of_length_pos (by omega)
  rw [header, header, headWords_snoc hne, List.take_append_of_le_length hk]

theorem header_short (hk : ws.length ≤ headWords ws) : header ws = ws := List.take_of_length_le hk

theorem ihl_take (ws : List Word) (hj : 1 ≤ j) : ihl (ws.take j) = ihl ws := by
  cases ws with
  | nil => rw [List.take_nil]
  | cons w ws =>
    obtain ⟨j, rfl⟩ := Nat.exists_eq_succ_of_ne_zero (Nat.ne_of_gt hj)
    rfl

theorem headWords_take (ws : List Word) (hj : 1 ≤ j) : headWords (ws.take j) = headWords ws := by
  rw [headWords, headWords, ihl_take ws hj]

theorem totLen_take (ws : List Word) (hj : 2 ≤ j) : totLen (ws.take j) = totLen ws := by
  rw [totLen, totLen, List.getD_eq_getElem?_getD, List.getD_eq_getElem?_getD,
    List.getElem?_take_of_lt hj]

theorem packetWords_take (ws : List Word) (hj : 2 ≤ j) :
    packetWords (ws.take j) = packetWords ws := by
  rw [packetWords, packetWords, headWords_take ws (by omega), totLen_take ws hj]

theorem packetWords_take_le (ws : List Word) :
    packetWords (ws.take j) ≤ j + 1 ↔ packetWords ws ≤ j + 1 := by
  by_cases h2 : 2 ≤ j
  · rw [packetWords_take ws h2]
  · have h3 (ws : List Word) : ¬ packetWords ws ≤ j + 1 := by
      have hN := two_le_headWords ws
      have hNM := headWords_lt_packetWords ws
      omega
    exact iff_of_false (h3 _) (h3 _)

theorem header_take (ws : List Word) (hj : headWords ws ≤ j) : header (ws.take j) = header ws := by
  have h2 := two_le_headWords ws
  rw [header, header, headWords_take ws (by omega), List.take_take, Nat.min_eq_left hj]

theorem headCsAfter_snoc (hc : BitVec 16) (ws : List Word) (w : Word) :
    headCsAfter hc (ws ++ [w]) = if ws.length = 5 then swapLanes w else headCsAfter hc ws := by
  rcases Nat.lt_trichotomy ws.length 5 with h | h | h
  · have h6 : ¬ 6 ≤ ws.length := by omega
    have h6' : ¬ 6 ≤ ws.length + 1 := by omega
    simp [headCsAfter, Nat.ne_of_lt h, h6, h6']
  · simp [headCsAfter, h]
  · have h6 : 6 ≤ ws.length := h
    have h6' : 6 ≤ ws.length + 1 := by omega
    simp [headCsAfter, Nat.ne_of_gt h, h6, h6', List.getElem?_append_left h]

theorem totLenAfter_snoc (tl : BitVec 16) (ws : List Word) (w : Word) :
    totLenAfter tl (ws ++ [w]) = if ws.length = 1 then swapLanes w - 2 else totLenAfter tl ws := by
  rcases Nat.lt_trichotomy ws.length 1 with h | h | h
  · have h2 : ¬ 2 ≤ ws.length := by omega
    have h2' : ¬ 2 ≤ ws.length + 1 := by omega
    simp [totLenAfter, Nat.ne_of_lt h, h2, h2']
  · simp [totLenAfter, totLen, h]
  · have h2 : 2 ≤ ws.length := h
    have h2' : 2 ≤ ws.length + 1 := by omega
    simp [totLenAfter, Nat.ne_of_gt h, h2, h2', totLen_snoc h2]

theorem ends_headOf (hk : ws.length < headWords ws) (h1 : ws ≠ []) (w : Word) :
    (headOf p ws).ends ⟨false, w, 2⟩ = decide (ws.length + 1 = headWords ws) := by
  have h30 := headWords_le ws
  have hpos := List.length_pos_of_ne_nil h1
  have hi := (ihl ws).isLt
  have hsum : (BitVec.ofNat 16 (2 * ws.length) + (2#2).setWidth 16).toNat = 2 * ws.length + 2 := by
    rw [BitVec.toNat_add, BitVec.toNat_ofNat]
    simp
    omega
  have hge : (((headOf p ws).cnt + (2#2).setWidth 16).extractLsb' 2 4 ≥ (headOf p ws).ihl) ↔
      ws.length + 1 = headWords ws := by
    rw [ge_iff_le, BitVec.le_def, BitVec.extractLsb'_toNat, headOf_cnt, headOf_ihl, hsum,
      Nat.shiftRight_eq_div_pow]
    rw [headWords] at hk ⊢
    omega
  have hhigh : (headOf p ws).cnt.extractLsb' 6 10 = 0#10 := by
    apply BitVec.eq_of_toNat_eq
    rw [BitVec.extractLsb'_toNat, headOf_cnt, BitVec.toNat_ofNat, Nat.shiftRight_eq_div_pow,
      BitVec.toNat_ofNat]
    omega
  rw [Head.ends, hhigh]
  simpa using hge

theorem readerAt_head (hne : ws ≠ []) (hk : ws.length < headWords ws) :
    readerAt p tl hc ws = ⟨.head (headOf p ws), totLenAfter tl ws, headCsAfter hc ws⟩ := by
  rw [readerAt, if_neg hne, if_pos hk, header_short (Nat.le_of_lt hk)]

theorem readerAt_data (hN : headWords ws ≤ ws.length) (hM : ws.length < packetWords ws) :
    readerAt p tl hc ws =
      ⟨.data (BitVec.ofNat 16 (2 * ws.length)) (corrupt hc (header ws))
        (filtered p (header ws) || (corrupt hc (header ws) && decide (headWords ws < ws.length)))
        (decide (ws.length = headWords ws)), totLen ws - 2, headCsAfter hc (header ws)⟩ := by
  have h2 : 2 ≤ ws.length := Nat.le_trans (two_le_headWords ws) hN
  have hne : ws ≠ [] := List.ne_nil_of_length_pos (by omega)
  rw [readerAt, if_neg hne, if_neg (Nat.not_lt.2 hN), if_pos hM, totLenAfter, if_pos h2]

theorem readerAt_idle (hM : packetWords ws ≤ ws.length) :
    readerAt p tl hc ws = ⟨.idle, totLen ws - 2, headCsAfter hc (header ws)⟩ := by
  have hlt := headWords_lt_packetWords ws
  have hN : headWords ws ≤ ws.length := by omega
  have h2 : 2 ≤ ws.length := Nat.le_trans (two_le_headWords ws) hN
  have hne : ws ≠ [] := List.ne_nil_of_length_pos (by omega)
  rw [readerAt, if_neg hne, if_neg (Nat.not_lt.2 hN), if_neg (Nat.not_lt.2 hM), totLenAfter,
    if_pos h2]

theorem next_readerAt_head (hne : ws ≠ []) (hk : ws.length < headWords ws) (w : Word) :
    (readerAt p tl hc ws).next p ⟨false, w, 2⟩ = readerAt p tl hc (ws ++ [w]) := by
  have h30 := headWords_le ws
  have hnext : (headOf p ws).next p ⟨false, w, 2⟩ = headOf p (ws ++ [w]) :=
    headOf_snoc (by omega) hne w
  have h10 : (headOf p ws).idx = 10 ↔ ws.length = 5 := idx_headOf (by omega) 5 rfl
  have hcs : (readerAt p tl hc ws).headCsNext (headOf p ws) ⟨false, w, 2⟩ =
      headCsAfter hc (ws ++ [w]) := by
    rw [headCsAfter_snoc, Reader.headCsNext, readerAt_head hne hk]
    by_cases hl : ws.length = 5
    · rw [if_pos (h10.2 hl), if_pos hl]
    · rw [if_neg (mt h10.1 hl), if_neg hl]
  have htl : (readerAt p tl hc ws).totLenNext (headOf p ws).cnt ⟨false, w, 2⟩ =
      totLenAfter tl (ws ++ [w]) := by
    have h2 : BitVec.ofNat 16 (2 * ws.length) = 2 ↔ ws.length = 1 := by
      rw [← BitVec.toNat_inj, BitVec.toNat_ofNat, show (2 : BitVec 16).toNat = 2 from rfl]
      omega
    rw [totLenAfter_snoc, Reader.totLenNext, readerAt_head hne hk, headOf_cnt]
    by_cases hl : ws.length = 1
    · rw [if_pos (h2.2 hl), if_pos hl]
    · rw [if_neg (mt h2.1 hl), if_neg hl]
  have hN : headWords (ws ++ [w]) = headWords ws := headWords_snoc hne w
  have hlen : (ws ++ [w]).length = ws.length + 1 := by simp
  rw [readerAt_head hne hk] at hcs htl ⊢
  simp only [Reader.next, ends_headOf hk hne, hnext, hcs, htl]
  by_cases hend : ws.length + 1 = headWords ws
  · have hM := headWords_lt_packetWords (ws ++ [w])
    have h2 := two_le_headWords ws
    have hhd : header (ws ++ [w]) = ws ++ [w] := header_short (by omega)
    have hdata : readerAt p tl hc (ws ++ [w]) = _ := readerAt_data (by omega) (by omega)
    have htl2 : totLenAfter tl (ws ++ [w]) = totLen (ws ++ [w]) - 2 := by
      rw [totLenAfter, if_pos (by omega)]
    have hcor : (headOf p (ws ++ [w])).csErr (headCsAfter hc (ws ++ [w])) =
        corrupt hc (ws ++ [w]) := rfl
    simp [hdata, hhd, hN, htl2, hcor, hend]
  · rw [readerAt_head (by simp) (by omega)]
    simp [hend]

theorem cnt_ge_totLen (hT : 2 ≤ (totLen ws).toNat) (hk : ws.length < packetWords ws) :
    BitVec.ofNat 16 (2 * ws.length) ≥ totLen ws - 2 ↔ (totLen ws).toNat ≤ 2 * ws.length + 2 := by
  have hM := packetWords_le ws
  have hlt := (totLen ws).isLt
  have hsub : (totLen ws - 2).toNat = (totLen ws).toNat - 2 :=
    BitVec.toNat_sub_of_le (BitVec.le_def.2 hT)
  rw [ge_iff_le, BitVec.le_def, hsub, BitVec.toNat_ofNat]
  omega

theorem next_readerAt_data (hN : headWords ws ≤ ws.length) (hM : ws.length < packetWords ws)
    (hT : 2 ≤ (totLen ws).toNat) (w : Word) :
    (readerAt p tl hc ws).next p ⟨false, w, 2⟩ = readerAt p tl hc (ws ++ [w]) := by
  have h2 : 2 ≤ ws.length := Nat.le_trans (two_le_headWords ws) hN
  have hne : ws ≠ [] := List.ne_nil_of_length_pos (by omega)
  have hM' := packetWords_le ws
  have hlen : (ws ++ [w]).length = ws.length + 1 := by simp
  have hNs : headWords (ws ++ [w]) = headWords ws := headWords_snoc hne w
  have hMs : packetWords (ws ++ [w]) = packetWords ws := packetWords_snoc h2 w
  have hge := cnt_ge_totLen hT hM
  have hcnt2 : BitVec.ofNat 16 (2 * ws.length) ≠ 2 := by
    intro h
    have := congrArg BitVec.toNat h
    rw [BitVec.toNat_ofNat, show (2 : BitVec 16).toNat = 2 from rfl] at this
    omega
  rw [readerAt_data hN hM]
  simp only [Reader.next, Reader.totLenNext, if_neg hcnt2]
  by_cases hend : ws.length + 1 = packetWords ws
  · have hT' : (totLen ws).toNat ≤ 2 * ws.length + 2 := by
      rw [packetWords] at hend
      omega
    rw [if_pos (hge.2 hT'), readerAt_idle (by omega), header_snoc hN, totLen_snoc h2]
  · have hT' : ¬ (totLen ws).toNat ≤ 2 * ws.length + 2 := by
      rw [packetWords] at hend hM
      omega
    have hcnt : BitVec.ofNat 16 (2 * ws.length) + (2 : BitVec 2).setWidth 16 =
        BitVec.ofNat 16 (2 * (ws.length + 1)) := (BitVec.ofNat_add (2 * ws.length) 2).symm
    have hlt : headWords ws < ws.length + 1 := by omega
    have hne' : ws.length + 1 ≠ headWords ws := by omega
    rw [if_neg (mt hge.1 hT'), readerAt_data (by omega) (by omega), header_snoc hN,
      totLen_snoc h2, hNs, hlen, hcnt, decide_eq_true hlt, decide_eq_false hne', Bool.and_true,
      Bool.or_assoc]
    cases corrupt hc (header ws) <;> simp

theorem next_readerAt_idle (hM : packetWords ws ≤ ws.length) (w : Word) (l : BitVec 2) :
    (readerAt p tl hc ws).next p ⟨false, w, l⟩ = readerAt p tl hc (ws ++ [w]) := by
  have hN : headWords ws ≤ ws.length := by
    have := headWords_lt_packetWords ws
    omega
  have h2 : 2 ≤ ws.length := Nat.le_trans (two_le_headWords ws) hN
  have hlen : (ws ++ [w]).length = ws.length + 1 := by simp
  have hMs : packetWords (ws ++ [w]) = packetWords ws := packetWords_snoc h2 w
  rw [readerAt_idle hM, readerAt_idle (by omega), header_snoc hN, totLen_snoc h2]
  rfl

theorem readerAt_snoc (hT : 2 ≤ ws.length → 2 ≤ (totLen ws).toNat) (w : Word) :
    (readerAt p tl hc ws).next p ⟨decide (ws = []), w, 2⟩ = readerAt p tl hc (ws ++ [w]) := by
  by_cases hne : ws = []
  · subst hne
    have h2 : 1 < headWords [w] := two_le_headWords [w]
    rw [List.nil_append, readerAt_head (List.cons_ne_nil w []) h2, ← headOf_first]
    rfl
  rw [decide_eq_false hne]
  by_cases hN : ws.length < headWords ws
  · exact next_readerAt_head hne hN w
  have hN' : headWords ws ≤ ws.length := Nat.not_lt.1 hN
  by_cases hM : ws.length < packetWords ws
  · exact next_readerAt_data hN' hM (hT (Nat.le_trans (two_le_headWords ws) hN')) w
  · exact next_readerAt_idle (Nat.not_lt.1 hM) w 2

theorem beats_snoc (ws : List Word) (w : Word) (l : BitVec 2) :
    beats (ws ++ [w]) l = beats ws 2 ++ [⟨decide (ws = []), w, l⟩] := by
  rw [beats, beats, List.mapIdx_append]
  have hinit : (ws.mapIdx fun j w' => (⟨decide (j = 0), w',
      if j + 1 = (ws ++ [w]).length then l else 2⟩ : Beat)) =
      ws.mapIdx fun j w' => ⟨decide (j = 0), w', if j + 1 = ws.length then 2 else 2⟩ := by
    rw [List.mapIdx_eq_mapIdx_iff]
    intro j hj
    have hne : j + 1 ≠ (ws ++ [w]).length := by
      rw [List.length_append, List.length_singleton]
      omega
    rw [if_neg hne, ite_self]
  rw [hinit]
  simp

theorem run_beats_header (hk : ws.length ≤ headWords ws) :
    (transducer p).run ⟨.idle, tl, hc⟩ (beats ws 2) = readerAt p tl hc ws := by
  induction ws using List.reverseRecOn with
  | nil => rfl
  | append_singleton ws w ih =>
    rw [beats_snoc, Mealy.run_append]
    by_cases hne : ws = []
    · subst hne
      have h2 : ¬ 2 ≤ ([] : List Word).length := Nat.not_succ_le_zero 1
      exact readerAt_snoc (fun h => absurd h h2) w
    · rw [headWords_snoc hne, List.length_append] at hk
      rw [ih (Nat.le_of_succ_le hk), decide_eq_false hne]
      exact next_readerAt_head hne hk w

theorem run_beats_full (hT : 2 ≤ ws.length → 2 ≤ (totLen ws).toNat) :
    (transducer p).run ⟨.idle, tl, hc⟩ (beats ws 2) = readerAt p tl hc ws := by
  induction ws using List.reverseRecOn with
  | nil => rfl
  | append_singleton ws w ih =>
    have hT' (h2 : 2 ≤ ws.length) : 2 ≤ (totLen ws).toNat := by
      rw [← totLen_snoc h2 w]
      apply hT
      rw [List.length_append]
      omega
    rw [beats_snoc, Mealy.run_append, ih hT']
    exact readerAt_snoc hT' w

theorem readerAt_last (hT : 2 ≤ (totLen ws).toNat) (hM : packetWords ws ≤ ws.length + 1)
    (h2 : 2 ≤ ws.length) (w : Word) (l : BitVec 2) :
    (readerAt p tl hc ws).next p ⟨decide (ws = []), w, l⟩ = readerAt p tl hc (ws ++ [w]) := by
  have hne : ws ≠ [] := List.ne_nil_of_length_pos (by omega)
  rw [decide_eq_false hne]
  by_cases hM' : ws.length < packetWords ws
  · have hNM := headWords_lt_packetWords ws
    have hN : headWords ws ≤ ws.length := by omega
    have hle : (totLen ws).toNat ≤ 2 * ws.length + 2 := by
      rw [packetWords] at hM
      omega
    rw [← next_readerAt_data hN hM' hT w, readerAt_data hN hM']
    simp only [Reader.next, if_pos ((cnt_ge_totLen hT hM').2 hle), Reader.totLenNext]
  · exact next_readerAt_idle (Nat.not_lt.1 hM') w l

theorem run_beats (hT : 2 ≤ (totLen ws).toNat) (hM : packetWords ws ≤ ws.length)
    (l : BitVec 2) :
    (transducer p).run ⟨.idle, tl, hc⟩ (beats ws l) =
      ⟨.idle, totLen ws - 2, headCsAfter hc (header ws)⟩ := by
  rw [← readerAt_idle hM]
  have h3 : 3 ≤ packetWords ws := Nat.le_trans (Nat.succ_le_succ (two_le_headWords ws))
    (headWords_lt_packetWords ws)
  obtain ⟨us, w, rfl⟩ : ∃ us w, ws = us ++ [w] := by
    refine ⟨ws.dropLast, ws.getLast (List.ne_nil_of_length_pos (by omega)), ?_⟩
    exact (List.dropLast_append_getLast _).symm
  rw [List.length_append, List.length_singleton] at hM
  have h2 : 2 ≤ us.length := by omega
  rw [totLen_snoc h2] at hT
  rw [packetWords_snoc h2] at hM
  rw [beats_snoc, Mealy.run_append, run_beats_full fun _ => hT]
  exact readerAt_last hT hM h2 w l

def payloadWords (ws : List Word) : List Word := (ws.take (packetWords ws)).drop (headWords ws)

def termLen (ws : List Word) : BitVec 2 := if (totLen ws).toNat % 2 = 0 then 2 else 1

/-- What UDP gets of a packet: nothing if a check failed, and only the first beat, marked, if the
checksum is wrong. -/
def passed (p : Params) (hc : BitVec 16) (ws : List Word) : List UdpRx.Beat :=
  if filtered p (header ws) then []
  else (if corrupt hc (header ws) then (payloadWords ws).take 1 else payloadWords ws).mapIdx
    fun j w => ⟨decide (j = 0), decide (headWords ws + j + 1 = packetWords ws), termLen ws, w,
      corrupt hc (header ws)⟩

theorem payloadWords_snoc_in (hN : headWords ws ≤ ws.length) (hM : ws.length < packetWords ws)
    (w : Word) : payloadWords (ws ++ [w]) = payloadWords ws ++ [w] := by
  have h2 : 2 ≤ ws.length := Nat.le_trans (two_le_headWords ws) hN
  have hne : ws ≠ [] := List.ne_nil_of_length_pos (by omega)
  rw [payloadWords, payloadWords, packetWords_snoc h2, headWords_snoc hne,
    List.take_of_length_le (by simp; omega), List.take_of_length_le (Nat.le_of_lt hM),
    List.drop_append_of_le_length hN]

theorem payloadWords_snoc_out (hM : packetWords ws ≤ ws.length) (w : Word) :
    payloadWords (ws ++ [w]) = payloadWords ws := by
  have hNM := headWords_lt_packetWords ws
  have h2 := two_le_headWords ws
  have hne : ws ≠ [] := List.ne_nil_of_length_pos (by omega)
  rw [payloadWords, payloadWords, packetWords_snoc (by omega), headWords_snoc hne,
    List.take_append_of_le_length hM]

theorem payloadWords_short (hN : ws.length ≤ headWords ws) : payloadWords ws = [] := by
  rw [payloadWords, List.drop_eq_nil_iff, List.length_take]
  omega

theorem length_payloadWords (ws : List Word) :
    (payloadWords ws).length = min (packetWords ws) ws.length - headWords ws := by
  rw [payloadWords, List.length_drop, List.length_take]

theorem termLen_eq (hT : 2 ≤ (totLen ws).toNat) (ph : Phase) (hc : BitVec 16) :
    Reader.termLen ⟨ph, totLen ws - 2, hc⟩ = termLen ws := by
  have hsub : (totLen ws - 2).toNat = (totLen ws).toNat - 2 :=
    BitVec.toNat_sub_of_le (BitVec.le_def.2 hT)
  have hbit : (totLen ws - 2).getLsbD 0 = decide ((totLen ws).toNat % 2 = 1) := by
    rw [BitVec.getLsbD, Nat.testBit_zero, hsub, decide_eq_decide]
    omega
  rw [Reader.termLen, hbit, termLen]
  rcases Nat.mod_two_eq_zero_or_one (totLen ws).toNat with h | h
  · rw [h]
    rfl
  · rw [h]
    rfl

theorem passed_short (hN : ws.length ≤ headWords ws) : passed p hc ws = [] := by
  rw [passed, payloadWords_short hN, List.take_nil, ite_self, List.mapIdx_nil, ite_self]

theorem passed_snoc_out (hM : packetWords ws ≤ ws.length) (w : Word) :
    passed p hc (ws ++ [w]) = passed p hc ws := by
  have hNM := headWords_lt_packetWords ws
  have h2 := two_le_headWords ws
  have hne : ws ≠ [] := List.ne_nil_of_length_pos (by omega)
  rw [passed, passed, payloadWords_snoc_out hM, header_snoc (by omega), headWords_snoc hne,
    packetWords_snoc (by omega), termLen, termLen, totLen_snoc (by omega)]

theorem out_readerAt_data (hN : headWords ws ≤ ws.length) (hM : ws.length < packetWords ws)
    (hT : 2 ≤ (totLen ws).toNat) (b : Beat) :
    (readerAt p tl hc ws).out b =
      if filtered p (header ws) || (corrupt hc (header ws) && decide (headWords ws < ws.length))
      then none
      else some ⟨decide (ws.length = headWords ws), decide (ws.length + 1 = packetWords ws),
        termLen ws, b.data, corrupt hc (header ws)⟩ := by
  have hend : (BitVec.ofNat 16 (2 * ws.length) ≥ totLen ws - 2) ↔
      ws.length + 1 = packetWords ws := by
    rw [cnt_ge_totLen hT hM]
    rw [packetWords] at hM ⊢
    omega
  rw [readerAt_data hN hM]
  cases filtered p (header ws) || (corrupt hc (header ws) && decide (headWords ws < ws.length)) with
  | true => rfl
  | false => simp only [Reader.out, termLen_eq hT, decide_eq_decide.2 hend, Bool.false_eq_true,
      ↓reduceIte]

theorem passed_snoc_data (hN : headWords ws ≤ ws.length) (hM : ws.length < packetWords ws)
    (hT : 2 ≤ (totLen ws).toNat) (b : Beat) :
    passed p hc (ws ++ [b.data]) = passed p hc ws ++ ((readerAt p tl hc ws).out b).toList := by
  have h2 := two_le_headWords ws
  have hne : ws ≠ [] := List.ne_nil_of_length_pos (by omega)
  have hlen : (payloadWords ws).length = ws.length - headWords ws := by
    rw [length_payloadWords, Nat.min_eq_right (Nat.le_of_lt hM)]
  rw [out_readerAt_data hN hM hT, passed, passed, payloadWords_snoc_in hN hM, header_snoc hN,
    headWords_snoc hne, packetWords_snoc (by omega), termLen, termLen, totLen_snoc (by omega)]
  cases filtered p (header ws) with
  | true => simp
  | false =>
    cases corrupt hc (header ws) with
    | true =>
      by_cases he : ws.length = headWords ws
      · have hnil : payloadWords ws = [] := payloadWords_short (Nat.le_of_eq he)
        simp [hnil, he]
      · have hpos : 1 ≤ (payloadWords ws).length := by omega
        have hlt : headWords ws < ws.length := by omega
        simp [List.take_append_of_le_length hpos, hlt]
    | false =>
      have hj0 : (payloadWords ws).length = 0 ↔ ws.length = headWords ws := by omega
      have hjM : headWords ws + (payloadWords ws).length + 1 = packetWords ws ↔
          ws.length + 1 = packetWords ws := by omega
      simp [List.mapIdx_append, hj0, hjM]

theorem passed_snoc (hT : 2 ≤ ws.length → 2 ≤ (totLen ws).toNat) (w : Word) (l : BitVec 2) :
    passed p hc (ws ++ [w]) = passed p hc ws ++
      ((readerAt p tl hc ws).out ⟨decide (ws = []), w, l⟩).toList := by
  have h2 := two_le_headWords ws
  by_cases hN : ws.length < headWords ws
  · by_cases hne : ws = []
    · subst hne
      have hw : passed p hc [w] = [] := passed_short (Nat.le_of_lt (two_le_headWords [w]))
      have hnil : passed p hc [] = [] := passed_short (Nat.zero_le _)
      rw [List.nil_append, hw, hnil]
      rfl
    · rw [passed_short (Nat.le_of_lt hN), readerAt_head hne hN, passed_short]
      · rfl
      · rw [List.length_append, headWords_snoc hne]
        exact hN
  have hN' : headWords ws ≤ ws.length := Nat.not_lt.1 hN
  by_cases hM : ws.length < packetWords ws
  · exact passed_snoc_data hN' hM (hT (by omega)) ⟨decide (ws = []), w, l⟩
  · rw [passed_snoc_out (Nat.not_lt.1 hM), readerAt_idle (Nat.not_lt.1 hM)]
    exact (List.append_nil _).symm

theorem emit_beats (hT : 2 ≤ ws.length → 2 ≤ (totLen ws).toNat) (l : BitVec 2) :
    (transducer p).emit ⟨.idle, tl, hc⟩ (beats ws l) = passed p hc ws := by
  induction ws using List.reverseRecOn generalizing l with
  | nil =>
    rw [passed_short (Nat.zero_le _)]
    rfl
  | append_singleton ws w ih =>
    have hT' (h2 : 2 ≤ ws.length) : 2 ≤ (totLen ws).toNat := by
      rw [← totLen_snoc h2 w]
      apply hT
      rw [List.length_append]
      omega
    rw [beats_snoc, Transducer.emit_append, run_beats_full hT', ih hT', passed_snoc hT' w l]
    rfl

/-- The counter is past the second word and at most `n`. -/
def Phase.Counted (n : Nat) : Phase → Prop
  | .idle => True
  | .head h => 4 ≤ h.cnt.toNat ∧ h.cnt.toNat ≤ n
  | .data cnt _ _ _ => 4 ≤ cnt.toNat ∧ cnt.toNat ≤ n

/-- Inside a packet whose total length wraps around when the header is taken off. -/
structure Endless (n : Nat) (r : Reader) : Prop where
  totLen : 65534 ≤ r.totLen.toNat
  cnt : r.phase.Counted n

theorem Endless.step (h : Endless n r) (hn : n + 3 < 65534) (hs : b.start = false) :
    Endless (n + 3) (r.next p b) := by
  obtain ⟨ph, tl, hc⟩ := r
  have htl : 65534 ≤ tl.toNat := h.totLen
  have hadd (c : BitVec 16) (h4 : 4 ≤ c.toNat) (hc : c.toNat ≤ n) :
      4 ≤ (c + b.len.setWidth 16).toNat ∧ (c + b.len.setWidth 16).toNat ≤ n + 3 := by
    have hl := b.len.isLt
    rw [BitVec.toNat_add, BitVec.toNat_setWidth]
    omega
  have hne (c : BitVec 16) (h4 : 4 ≤ c.toNat) : c ≠ 2 := by
    rintro rfl
    exact absurd h4 (by decide)
  cases ph with
  | idle =>
    have hnext : Reader.next p ⟨.idle, tl, hc⟩ b = ⟨.idle, tl, hc⟩ := by simp [Reader.next, hs]
    rw [hnext]
    exact ⟨htl, True.intro⟩
  | head hd =>
    obtain ⟨h4, hle⟩ := h.cnt
    have hcnt := hadd hd.cnt h4 hle
    have hkeep : Reader.totLenNext ⟨.head hd, tl, hc⟩ hd.cnt b = tl := if_neg (hne hd.cnt h4)
    refine ⟨?_, ?_⟩
    · simpa only [Reader.next, hkeep] using htl
    · simp only [Reader.next]
      cases hd.ends b with
      | true => exact hcnt
      | false => exact hcnt
  | data c e d f =>
    obtain ⟨h4, hle⟩ := h.cnt
    have hlt : ¬ c ≥ tl := by
      rw [ge_iff_le, BitVec.le_def]
      omega
    have hkeep : Reader.totLenNext ⟨.data c e d f, tl, hc⟩ c b = tl := if_neg (hne c h4)
    refine ⟨?_, ?_⟩
    · simpa only [Reader.next, hkeep] using htl
    · simp only [Reader.next, if_neg hlt]
      exact hadd c h4 hle

theorem Endless.open (h : Endless n r) (hn : n < 65534) (ho : r.out b = some u) :
    u.term = false := by
  obtain ⟨ph, tl, hc⟩ := r
  have htl : 65534 ≤ tl.toNat := h.totLen
  cases ph with
  | idle => cases ho
  | head hd => cases ho
  | data c e d f =>
    cases d with
    | true => cases ho
    | false =>
      obtain ⟨h4, hle⟩ := h.cnt
      have hlt : ¬ c ≥ tl := by
        rw [ge_iff_le, BitVec.le_def]
        omega
      cases ho
      exact decide_eq_false hlt

theorem Endless.run {bs : List Beat} (h : Endless n r) (hn : n + 3 * bs.length < 65534)
    (hs : ∀ b ∈ bs, b.start = false) : ∀ u ∈ (transducer p).emit r bs, u.term = false := by
  induction bs generalizing r n with
  | nil => exact fun u hu => absurd hu (List.not_mem_nil)
  | cons b bs ih =>
    rw [List.length_cons] at hn
    rw [Transducer.emit_cons]
    intro u hu
    rcases List.mem_append.1 hu with hu | hu
    · exact h.open (by omega) (Option.mem_toList.1 hu)
    · exact ih (h.step (by omega) (hs b List.mem_cons_self)) (by omega)
        (fun c hc => hs c (List.mem_cons_of_mem _ hc)) u hu

/-- A packet of total length 0 or 1 is not ended within any length a frame has. -/
theorem term_emit_short (hT : (totLen ws).toNat < 2) (h3 : 3 ≤ ws.length)
    (hlen : ws.length ≤ 20000) (l : BitVec 2) :
    ∀ u ∈ (transducer p).emit ⟨.idle, tl, hc⟩ (beats ws l), u.term = false := by
  obtain _ | ⟨w₀, _ | ⟨w₁, ws⟩⟩ := ws
  · exact absurd h3 (by decide)
  · exact absurd h3 (by simp)
  rw [List.length_cons, List.length_cons] at h3 hlen
  have hbeats : beats (w₀ :: w₁ :: ws) l = ⟨true, w₀, 2⟩ :: ⟨false, w₁, 2⟩ ::
      ws.mapIdx fun j w => ⟨false, w, if j + 1 = ws.length then l else 2⟩ := by
    have hne : ws ≠ [] := List.ne_nil_of_length_pos (by omega)
    have h0 : 0 ≠ ws.length := by omega
    simp [beats, hne, h0]
  have hfirst : Reader.next p ⟨.idle, tl, hc⟩ ⟨true, w₀, 2⟩ =
      ⟨.head (Head.first ⟨true, w₀, 2⟩), tl, hc⟩ := rfl
  have hendless : Endless 4 (Reader.next p ⟨.head (Head.first ⟨true, w₀, 2⟩), tl, hc⟩
      ⟨false, w₁, 2⟩) := by
    refine ⟨?_, ?_⟩
    · have hsub : totLen (w₀ :: w₁ :: ws) = swapLanes w₁ := rfl
      have htl : (Reader.next p ⟨.head (Head.first ⟨true, w₀, 2⟩), tl, hc⟩ ⟨false, w₁, 2⟩).totLen =
          swapLanes w₁ - 2 := rfl
      rw [hsub] at hT
      rw [htl, BitVec.toNat_sub]
      change _ ≤ (2 ^ 16 - 2 + _) % 2 ^ 16
      omega
    · simp only [Reader.next]
      cases (Head.first ⟨true, w₀, 2⟩).ends ⟨false, w₁, 2⟩ with
      | true => exact ⟨Nat.le_refl 4, Nat.le_refl 4⟩
      | false => exact ⟨Nat.le_refl 4, Nat.le_refl 4⟩
  have hrest : ∀ b ∈ ws.mapIdx fun j w => (⟨false, w, if j + 1 = ws.length then l else 2⟩ : Beat),
      b.start = false := by
    intro b hb
    obtain ⟨j, hj, rfl⟩ := List.mem_mapIdx.1 hb
    rfl
  rw [hbeats, Transducer.emit_cons, Transducer.emit_cons]
  exact hendless.run (by rw [List.length_mapIdx]; omega) hrest

end LowLatencyEthernet.Ipv4Rx
