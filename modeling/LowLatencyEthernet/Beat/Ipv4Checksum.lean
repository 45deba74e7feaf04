import LowLatencyEthernet.Beat.Ipv4Filter

namespace LowLatencyEthernet.Ipv4Rx
set_option autoImplicit true

open Sync OnesComplement

/-- The running sum with the carry that is still out. -/
def sums (s : State) : Acc 16 := ⟨s.csQ, s.csCarryQ⟩

/-- No header is read any more, and the sum of the last one is `a`. -/
structure Summed (s : State) (a : Acc 16) : Prop where
  head : s.fsmHeadQ = false
  data : s.fsmDataQ = true → s.fsmIdleQ = false ∧ sums s = a

theorem Summed.stall (h : Summed s a) (hb : beat i = none) : Summed (next p true s i) a := by
  rw [beat_eq_none] at hb
  constructor
  · simp [next, hb, h.head]
  · intro hd
    have hd' : s.fsmDataQ = true := by simpa [next, hb] using hd
    obtain ⟨hi, hsum⟩ := h.data hd'
    exact ⟨by simp [next, hb, hi], by simp [← hsum, sums, next, csEn, hb, hi]⟩

theorem Summed.step (h : Summed s a) (hb : beat i = some b) (hst : b.start = false)
    (hcan : i.cancelI = false) : Summed (next p true s i) a := by
  obtain ⟨hv, hs, _, _⟩ := beat_eq_some.1 hb
  rw [hst] at hs
  constructor
  · simp [next, fsmHeadNext, hv, hs, h.head]
  · intro hd
    have hd' : s.fsmDataQ = true ∧ endDataLiteV s = false := by
      simpa [next, fsmDataNext, hv, h.head] using hd
    obtain ⟨hi, hsum⟩ := h.data hd'.1
    constructor
    · simp [next, fsmIdleNext, hv, hcan, hi, hd'.2]
    · simp [← hsum, sums, next, csEn, hi, hd'.1]

theorem Summed.run {is : List In} (h : Summed s a) (hcan : ∀ i ∈ is, Contract i)
    (hst : ∀ b ∈ is.filterMap beat, b.start = false) : Summed ((machine p).run s is) a := by
  induction is generalizing s with
  | nil => exact h
  | cons i is ih =>
    have hrest (j : In) (hj : j ∈ is) : Contract j := hcan j (List.mem_cons_of_mem _ hj)
    cases hb : beat i with
    | none =>
      rw [List.filterMap_cons_none hb] at hst
      exact ih (h.stall hb) hrest hst
    | some b =>
      rw [List.filterMap_cons_some hb] at hst
      have hc : i.cancelI = false := hcan i List.mem_cons_self (beat_eq_some.1 hb).1
      exact ih (h.step hb (hst b List.mem_cons_self) hc) hrest
        fun c hmem => hst c (List.mem_cons_of_mem _ hmem)

theorem getElem?_beats_full (ws : List Word) (k : Nat) :
    (beats ws 2)[k]? = ws[k]?.map fun w => ⟨decide (k = 0), w, 2⟩ := by
  rw [beats, List.getElem?_mapIdx]
  simp

theorem take_beats_full (ws : List Word) (k : Nat) :
    (beats ws 2).take k = beats (ws.take k) 2 := by
  apply List.ext_getElem?
  intro j
  rw [List.getElem?_take, getElem?_beats_full, getElem?_beats_full, List.getElem?_take]
  split <;> rfl

theorem Presented.before (h : Presented s (pre ++ post) ws 2) (hne : pre.filterMap beat ≠ []) :
    Presented s pre (ws.take (pre.filterMap beat).length) 2 where
  ready := h.ready
  carried := by
    constructor
    · rw [← take_beats_full, ← h.carried.beats, List.filterMap_append, List.take_left]
    · exact fun i hi => h.carried.good i (List.mem_append_left _ hi)
  last := .inr rfl
  nonempty := by
    intro h0
    have hlen : (pre.filterMap beat).length ≤ ws.length := by
      have hall := congrArg List.length h.carried.beats
      rw [List.filterMap_append, List.length_append, beats, List.length_mapIdx] at hall
      omega
    have hpos := List.length_pos_of_ne_nil hne
    rw [List.take_eq_nil_iff] at h0
    rcases h0 with h0 | h0
    · omega
    · rw [h0] at hlen
      exact absurd (Nat.lt_of_lt_of_le hpos hlen) (Nat.lt_irrefl 0)

theorem Presented.reads_header (h : Presented s is ws 2) (hk : ws.length ≤ headWords ws)
    (p : Params) : Reads ((machine p).run s is) (readerAt p s.totLenQ s.headChecksumQ ws) := by
  have hreads := h.received p
  rwa [idleReader, run_beats_header hk] at hreads

theorem Reads.sums_next (h : Reads s (readerAt p tl hc ws)) (hne : ws ≠ [])
    (hk : ws.length < headWords ws) (hb : beat i = some ⟨false, w, 2⟩) :
    sums (next p true s i) = csAcc (ws ++ [w]) := by
  have h30 := headWords_le ws
  have hnext : (headOf p ws).next p ⟨false, w, 2⟩ = headOf p (ws ++ [w]) :=
    headOf_snoc (by omega) hne w
  rw [readerAt_head hne hk] at h
  obtain ⟨_, hlow, hcarry⟩ := h.head_sum (p := p) hb
  rw [hnext] at hlow hcarry
  exact Acc.ext hlow hcarry

theorem Presented.in_data (h : Presented s is (header ws) 2) (hN : headWords ws ≤ ws.length)
    (p : Params) : ((machine p).run s is).fsmHeadQ = false ∧
      ((machine p).run s is).fsmDataQ = true ∧ ((machine p).run s is).fsmIdleQ = false ∧
      csErrV ((machine p).run s is) = corrupt s.headChecksumQ (header ws) := by
  have hlen : (header ws).length = headWords ws := List.length_take_of_le hN
  have h2 := two_le_headWords ws
  have hhw : headWords (header ws) = headWords ws := headWords_take ws (by omega)
  have hreads := h.reads_header (by omega) p
  obtain ⟨c, t, x, hr⟩ := readerAt_header p s.totLenQ s.headChecksumQ hN
  rw [hr] at hreads
  obtain ⟨_, hi, hh, hd, _, _, he, _⟩ := hreads
  exact ⟨hh, hd, hi, he⟩

theorem Presented.summed (h : Presented s is ws 2) (hN : headWords ws ≤ ws.length) (p : Params) :
    Summed ((machine p).run s is) (csAcc (header ws)) := by
  have h2 := two_le_headWords ws
  obtain ⟨n, hn⟩ := Nat.exists_eq_add_of_le' (Nat.le_of_succ_le h2)
  have hlt : n < ws.length := by omega
  have h0 : n ≠ 0 := by omega
  have hb : (beats ws 2)[n]? = some ⟨false, ws[n], 2⟩ := by
    rw [getElem?_beats_full, List.getElem?_eq_getElem hlt, Option.map_some, decide_eq_false h0]
  obtain ⟨hlen, hget⟩ := List.getElem?_eq_some_iff.1 hb
  have hsplit : is.filterMap beat =
      (beats ws 2).take n ++ ⟨false, ws[n], 2⟩ :: (beats ws 2).drop (n + 1) := by
    rw [h.carried.beats, ← hget, ← List.drop_eq_getElem_cons hlen, List.take_append_drop]
  -- the cycle of the last word of the header
  obtain ⟨pre, i, post, rfl, hpre, hi, hpost⟩ := exists_cycle hsplit
  have hsize : (pre.filterMap beat).length = n := by
    rw [hpre, List.length_take]
    omega
  have hsize' : ((pre ++ [i]).filterMap beat).length = headWords ws := by
    rw [List.filterMap_append, List.length_append, hsize, List.filterMap_cons_some hi, hn]
    rfl
  have hheader : header ws = ws.take n ++ [ws[n]] := by
    rw [header, hn, List.take_succ_eq_append_getElem hlt]
  have hsums : sums ((machine p).run s (pre ++ [i])) = csAcc (header ws) := by
    have hfront := h.before (List.ne_nil_of_length_pos (by omega))
    rw [hsize] at hfront
    have hlen' : (ws.take n).length = n := List.length_take_of_le (Nat.le_of_lt hlt)
    have hhw : headWords (ws.take n) = headWords ws := headWords_take ws (by omega)
    have hreads := hfront.reads_header (by omega) p
    rw [Mealy.run_append, hheader]
    exact hreads.sums_next hfront.nonempty (by omega) hi
  rw [List.append_cons] at h ⊢
  have hwhole := h.before (List.ne_nil_of_length_pos (by omega))
  rw [hsize', ← header] at hwhole
  obtain ⟨hhead, _, hidle, _⟩ := hwhole.in_data hN p
  rw [Mealy.run_append]
  apply Summed.run ⟨hhead, fun _ => ⟨hidle, hsums⟩⟩
  · exact fun j hj => h.carried.good j (List.mem_append_right _ hj)
  · intro c hc
    rw [hpost] at hc
    exact start_beats hc

theorem Presented.sums_eq (h : Presented s is ws 2) (p : Params)
    (hr : ((machine p).run s is).fsmHeadQ = true ∨ ((machine p).run s is).fsmDataQ = true) :
    sums ((machine p).run s is) = csAcc (header ws) := by
  by_cases hN : headWords ws ≤ ws.length
  · have hsum := h.summed hN p
    rcases hr with hr | hr
    · exact Bool.noConfusion (hsum.head.symm.trans hr)
    · exact (hsum.data hr).2
  · have hk : ws.length < headWords ws := Nat.lt_of_not_le hN
    have hreads := h.reads_header (Nat.le_of_lt hk) p
    rw [readerAt_head h.nonempty hk] at hreads
    obtain ⟨_, _, _, _, _, _, _, hlow, hcarry, _⟩ := hreads
    rw [header_short (Nat.le_of_lt hk)]
    exact Acc.ext hlow hcarry

/-- The registers hold the sum of the header words of `ws` but the checksum field, and their last
addition does not overflow. -/
structure SumOf (s : State) (ws : List Word) : Prop where
  fits : s.csQ.toNat + s.csCarryQ.toNat < 2 ^ 16
  total : cs s = OnesComplement.sum (summands ws)

theorem sumOf_of_sums (h : sums s = csAcc (header ws)) : SumOf s ws := by
  have hfits : (sums s).Fits := by
    rw [h]
    exact Acc.fits_zero.foldl _
  have htotal : (sums s).total = OnesComplement.sum (summands ws) := by
    rw [h]
    exact Acc.total_foldl _
  exact ⟨hfits, htotal⟩

/-- The checksum of a header is verified: the registers hold the sum of the words read so far, the
first beat after the header tells whether the checksum field is its complement, and if it is not,
that beat is the only one that may be shown. -/
structure Verified (p : Params) (s : State) (is : List In) (ws : List Word) : Prop where
  sums : ∀ pre post, is = pre ++ post → pre.filterMap beat ≠ [] →
    ((machine p).run s pre).fsmHeadQ = true ∨ ((machine p).run s pre).fsmDataQ = true →
    SumOf ((machine p).run s pre) (ws.take (pre.filterMap beat).length)
  first : ∀ pre i post, is = pre ++ i :: post → pre.filterMap beat = beats (header ws) 2 →
    beat i ≠ none → SumOf ((machine p).run s pre) ws ∧
      ((out ((machine p).run s pre) i).csErrO = true ↔
        checksum ws ≠ ~~~(OnesComplement.sum (summands ws)))
  later : checksum ws ≠ ~~~(OnesComplement.sum (summands ws)) →
    ∀ k a, headWords ws < k → (answers (machine p) beat port s is)[k]? = some a → a = none

theorem badChecksum_iff (ws : List Word) :
    badChecksum ws = true ↔ checksum ws ≠ ~~~(OnesComplement.sum (summands ws)) := by
  rw [badChecksum, bne_iff_ne]
  exact ne_comm

theorem Presented.first_word (h : Presented s (pre ++ i :: post) ws 2)
    (hpre : pre.filterMap beat = beats (header ws) 2) (hi : beat i ≠ none) :
    headWords ws < ws.length := by
  obtain ⟨b, hb⟩ := Option.ne_none_iff_exists'.1 hi
  have hall := congrArg List.length h.carried.beats
  rw [List.filterMap_append, hpre, List.filterMap_cons_some hb, List.length_append,
    List.length_cons, beats, beats, List.length_mapIdx, List.length_mapIdx, header,
    List.length_take] at hall
  omega

/-- The checksum of every header of full length is verified. -/
theorem checksum_verified (p : Params) (h : Presented s is ws 2) (h5 : 5 ≤ (ihl ws).toNat) :
    Verified p s is ws where
  sums := by
    rintro pre post rfl hne hr
    exact sumOf_of_sums ((h.before hne).sums_eq p hr)
  first := by
    rintro pre i post rfl hpre hi
    have hN := h.first_word hpre hi
    have h2 := two_le_headWords ws
    have hlen : (pre.filterMap beat).length = headWords ws := by
      rw [hpre, beats, List.length_mapIdx, header, List.length_take]
      omega
    have hpart := h.before (List.ne_nil_of_length_pos (by omega))
    rw [hlen, ← header] at hpart
    obtain ⟨_, hdata, _, herr⟩ := hpart.in_data (Nat.le_of_lt hN) p
    have hsums := hpart.sums_eq p (.inr hdata)
    have hhd : header (header ws) = header ws := header_take ws (Nat.le_refl _)
    rw [hhd] at hsums
    refine ⟨sumOf_of_sums hsums, ?_⟩
    rw [← badChecksum_iff, ← corrupt_full h5 (Nat.le_of_lt hN), ← herr]
    rfl
  later := by
    intro hbad k a hk ha
    cases a with
    | none => rfl
    | some u =>
      obtain ⟨hlt, hshows⟩ := (h.offered.shows_iff p).1 ⟨u, ha⟩
      obtain ⟨hclear, _⟩ := h.found_ready p
      have hN : headWords ws ≤ ws.length := Nat.le_of_lt (Nat.lt_trans hk hlt)
      have hsound := hshows.sound
      rw [hclear.header_eq, (hclear.verdicts hN p).1, corrupt_full h5 hN,
        hclear.headEnd_eq] at hsound
      rcases hsound with hok | heq
      · exact Bool.noConfusion (hok.symm.trans ((badChecksum_iff ws).2 hbad))
      · exact absurd heq (Nat.ne_of_gt hk)

theorem checksum_verified_plain :
    Verified plainParams between ((beats (plain 0x4000) 2).map feed) (plain 0x4000) :=
  checksum_verified plainParams (presented_plain 0x4000) (by decide)

/-- The first idle cycle after a packet. The counter still holds the length of the packet. -/
def afterPlain : State := (machine plainParams).run between ((beats (plain 0x4000) 2).map feed)

/-- A packet that starts in that cycle is not recognised, and its wrong checksum is not reported. -/
theorem checksum_not_verified :
    (afterPlain.fsmIdleQ = true ∧ afterPlain.fsmHeadQ = false ∧ afterPlain.fsmDataQ = false) ∧
      Carried beat Contract ((beats (plain 0x4000) 2).map feed) (beats (plain 0x4000) 2) ∧
      ¬ Verified plainParams afterPlain ((beats (plain 0x4000) 2).map feed) (plain 0x4000) := by
  refine ⟨by decide +kernel, (presented_plain 0x4000).carried, fun hv => ?_⟩
  have hfirst := hv.first (((beats (plain 0x4000) 2).take 10).map feed)
    (feed ⟨false, swapLanes 0xcafe, 2⟩) [] (by decide) (by decide) (by decide)
  have herr := hfirst.2.2 (by decide)
  exact absurd herr (by decide +kernel)

end LowLatencyEthernet.Ipv4Rx
