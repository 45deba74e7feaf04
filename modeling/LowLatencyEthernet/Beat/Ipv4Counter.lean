import LowLatencyEthernet.Sync.Presented
import LowLatencyEthernet.Beat.Packets

namespace LowLatencyEthernet.Ipv4Rx
set_option autoImplicit true

open Sync OnesComplement

def Contract (i : In) : Prop := i.validI = true → i.cancelI = false

theorem Reads.step (h : Reads s r) (hb : beat i = some b) (hs : b.start = false)
    (hcan : i.cancelI = false) : Reads (next p true s i) (r.next p b) := by
  obtain ⟨ph, tl, hc⟩ := r
  cases ph with
  | idle =>
    have hr : Reader.next p ⟨.idle, tl, hc⟩ b = ⟨.idle, tl, hc⟩ := by simp [Reader.next, hs]
    rw [hr]
    exact h.step_idle hb hs
  | head => exact h.step_head hb hcan
  | data => exact h.step_data hb hcan

/-- Past the start of a packet the receiver is the reader, whatever it had in its registers. -/
theorem follows (p : Params) : Follows ((machine p).under Contract) (transducer p)
    (fun i => beat i.1) port (fun _ b => b.start = false) Reads where
  stall h hb := h.stall hb
  stall_out _ hb := stall_out hb
  step {_ _ i _} h hb hs := h.step hb hs (i.2 (beat_eq_some.1 hb).1)
  step_out h hb _ := h.out_eq hb

/-- The words `ws` as one packet, the last beat `l` bytes long, presented to a receiver that is
idle. -/
structure Offered (s : State) (is : List In) (ws : List Word) (l : BitVec 2) : Prop where
  idle : s.fsmIdleQ = true ∧ s.fsmHeadQ = false ∧ s.fsmDataQ = false
  carried : Carried beat Contract is (beats ws l)
  nonempty : ws ≠ []

theorem Offered.found_idle (h : Offered s is ws l) (p : Params) (tl hc : BitVec 16) :
    Reads (found (machine p) beat s is) ⟨.idle, tl, hc⟩ :=
  found_of_stall (P := fun s => Reads s ⟨.idle, tl, hc⟩) (fun h hb => h.stall hb) h.idle is

/-- The reader that has been given the words `ws` of a packet, which found the registers `s`. -/
def readerFrom (p : Params) (s : State) : List Word → Reader
  | [] => ⟨.idle, s.totLenQ, s.headChecksumQ⟩
  | w :: ws => (transducer p).run (opened s ⟨true, w, 2⟩) (ws.map fun w => ⟨false, w, 2⟩)

theorem readerFrom_snoc (hne : ws ≠ []) (w : Word) :
    readerFrom p s (ws ++ [w]) = (readerFrom p s ws).next p ⟨false, w, 2⟩ := by
  obtain ⟨v, vs, rfl⟩ := List.exists_cons_of_ne_nil hne
  rw [List.cons_append, readerFrom, List.map_append, Mealy.run_append]
  rfl

theorem beats_cons (w : Word) (ws : List Word) (l : BitVec 2) :
    beats (w :: ws) l = ⟨true, w, if ws = [] then l else 2⟩ ::
      ws.mapIdx fun k w => ⟨false, w, if k + 1 = ws.length then l else 2⟩ := by
  have h0 : 0 = ws.length ↔ ws = [] := by
    rw [eq_comm]
    exact List.length_eq_zero_iff
  simp [beats, h0]

theorem take_tail_beats {ws : List Word} (hk : k < ws.length) :
    (ws.mapIdx fun j w => (⟨false, w, if j + 1 = ws.length then l else 2⟩ : Beat)).take k =
      (ws.take k).map fun w => ⟨false, w, 2⟩ := by
  apply List.ext_getElem?
  intro j
  rw [List.getElem?_take, List.getElem?_mapIdx, List.getElem?_map, List.getElem?_take]
  by_cases hj : j < k
  · have hne : j + 1 ≠ ws.length := by omega
    simp [hj, hne]
  · simp [hj]

theorem Offered.reads (h : Offered s is ws l) (hb : beats ws l = b :: bs) (p : Params) :
    Reads ((machine p).run s is)
      ((transducer p).run (opened (found (machine p) beat s is) b) bs) ∧
    answers (machine p) beat port s is =
      none :: (transducer p).trace (opened (found (machine p) beat s is) b) bs := by
  obtain ⟨w, ws, rfl⟩ := List.exists_cons_of_ne_nil h.nonempty
  have hidle := h.found_idle p 0 0
  have hc := h.carried
  rw [beats_cons] at hb
  obtain ⟨rfl, rfl⟩ := List.cons.inj hb
  rw [beats_cons] at hc
  apply (follows p).from_found hc
  · exact fun i hi hb => hidle.step_start hb rfl (hi (beat_eq_some.1 hb).1)
  · exact fun i _ hb => hidle.out_eq hb
  · apply Mealy.along_of_forall
    intro _ b hb
    obtain ⟨k, _, rfl⟩ := List.mem_mapIdx.1 hb
    rfl

theorem Offered.received (h : Offered s is ws l) (p : Params) :
    answers (machine p) beat port s is = (beats ws l).mapIdx fun k b =>
      (readerFrom p (found (machine p) beat s is) (ws.take k)).out b := by
  obtain ⟨w, ws, rfl⟩ := List.exists_cons_of_ne_nil h.nonempty
  have hans := (h.reads (beats_cons w ws l) p).2
  rw [hans, Mealy.trace_eq_mapIdx, beats_cons, List.mapIdx_cons]
  apply congrArg (none :: ·)
  rw [List.mapIdx_eq_mapIdx_iff]
  intro k hk
  rw [List.length_mapIdx] at hk
  have hne : ws ≠ [] := List.ne_nil_of_length_pos (Nat.zero_lt_of_lt hk)
  rw [take_tail_beats hk, if_neg hne]
  rfl

def offset (c : BitVec 16) (k : Nat) : BitVec 16 := c + BitVec.ofNat 16 (2 * k)

def field (c : BitVec 16) (k : Nat) : BitVec 6 := (offset c k).extractLsb' 0 6

theorem offset_succ (c : BitVec 16) (k : Nat) : offset c (k + 1) = offset c k + 2 := by
  rw [offset, offset, BitVec.add_assoc]
  exact congrArg (c + ·) (BitVec.ofNat_add (2 * k) 2)

theorem toNat_offset (c : BitVec 16) (k : Nat) :
    (offset c k).toNat = (c.toNat + 2 * k) % 2 ^ 16 := by
  rw [offset, BitVec.toNat_add, BitVec.toNat_ofNat, Nat.add_mod_mod]

/-- The header is over with word `k` of a packet whose header length is `n`. -/
def Over (c : BitVec 16) (n : BitVec 4) (k : Nat) : Prop :=
  (offset c (k + 1)).extractLsb' 2 4 ≥ n ∨ (offset c k).extractLsb' 6 10 ≠ 0

instance : Decidable (Over c n k) := inferInstanceAs (Decidable (_ ∨ _))

def headEnd (c : BitVec 16) (n : BitVec 4) : Nat :=
  if 64 ≤ (c + 2).toNat ∨ n.toNat = 0 then 2
  else if 62 ≤ (c + 2).toNat then 3
  else 2 + (4 * n.toNat - (c + 2).toNat - 1) / 2

theorem two_le_headEnd (c : BitVec 16) (n : BitVec 4) : 2 ≤ headEnd c n := by
  rw [headEnd]
  split
  · exact Nat.le_refl 2
  · split
    · decide
    · exact Nat.le_add_right 2 _

theorem over_iff (h1 : 1 ≤ k) (hk : k < headEnd c n) : Over c n k ↔ k + 1 = headEnd c n := by
  have hc : (c + 2).toNat = (c.toNat + 2) % 2 ^ 16 := BitVec.toNat_add c 2
  have hlt := n.isLt
  have hnext := toNat_offset c (k + 1)
  have hhere := toNat_offset c k
  have hlow : (offset c (k + 1)).extractLsb' 2 4 ≥ n ↔
      n.toNat ≤ (offset c (k + 1)).toNat / 4 % 16 := by
    rw [ge_iff_le, BitVec.le_def, BitVec.extractLsb'_toNat, Nat.shiftRight_eq_div_pow]
  have hhigh : (offset c k).extractLsb' 6 10 ≠ 0 ↔ (offset c k).toNat / 64 % 1024 ≠ 0 := by
    rw [ne_eq, ← BitVec.toNat_inj, BitVec.extractLsb'_toNat, Nat.shiftRight_eq_div_pow]
    rfl
  rw [Over, hlow, hhigh]
  rw [headEnd] at hk ⊢
  split_ifs at hk ⊢ <;> omega

/-- The words after the first that stand at the offset `j` satisfy `P`. -/
def AllAt (c : BitVec 16) (j : BitVec 6) (P : Word → Prop) (ws : List Word) : Prop :=
  ∀ k w, ws[k]? = some w → 0 < k → field c k = j → P w

theorem allAt_snoc {P : Word → Prop} (hne : ws ≠ []) (w : Word) :
    AllAt c j P (ws ++ [w]) ↔ AllAt c j P ws ∧ (field c ws.length = j → P w) := by
  constructor
  · intro h
    constructor
    · intro k v hv
      exact h k v (by rw [List.getElem?_append_left (List.getElem?_eq_some_iff.1 hv).1, hv])
    · exact h ws.length w (List.getElem?_concat_length) (List.length_pos_of_ne_nil hne)
  · rintro ⟨h, hw⟩ k v hv h0 hj
    rcases Nat.lt_trichotomy k ws.length with hlt | rfl | hgt
    · rw [List.getElem?_append_left hlt] at hv
      exact h k v hv h0 hj
    · rw [List.getElem?_concat_length] at hv
      cases hv
      exact hw hj
    · rw [List.getElem?_eq_none (by simp; omega)] at hv
      cases hv

theorem AllAt.dropLast {P : Word → Prop} (h : AllAt c j P ws) : AllAt c j P ws.dropLast := by
  intro k w hw
  rw [List.getElem?_dropLast] at hw
  split at hw
  · exact h k w hw
  · cases hw

theorem allAt_singleton {P : Word → Prop} (w : Word) : AllAt c j P [w] := by
  intro k v hv h0
  obtain ⟨k, rfl⟩ := Nat.exists_eq_succ_of_ne_zero (Nat.ne_of_gt h0)
  cases hv

/-- The words of a header pass the checks: those that stand where a field is expected, and of each
address the upper half once the word after it is there. -/
structure Passes (p : Params) (s : State) (ws : List Word) : Prop where
  clear : s.bypassVQ = false
  version : (ws.getD 0 0).extractLsb' 4 4 = Ipv4Rx.version
  flags : AllAt s.cntQ 6 (fun w => w.extractLsb' 5 3 = fragFlag) ws
  protocol : AllAt s.cntQ 8 (fun w => lane1 w = p.protocol) ws
  srcUpper : p.matchSrcAddr = true →
    AllAt s.cntQ 12 (fun w => w = p.srcAddr.extractLsb' 16 16) ws.dropLast
  srcLower : p.matchSrcAddr = true → AllAt s.cntQ 13 (fun w => w = p.srcAddr.extractLsb' 0 16) ws
  dstUpper : p.matchDstAddr = true →
    AllAt s.cntQ 16 (fun w => w = p.dstAddr.extractLsb' 16 16) ws.dropLast
  dstLower : p.matchDstAddr = true → AllAt s.cntQ 17 (fun w => w = p.dstAddr.extractLsb' 0 16) ws

/-- The numbers in the words whose position satisfies `q`. -/
def pick (q : Nat → Prop) [DecidablePred q] (ws : List Word) : List (BitVec 16) :=
  ws.zipIdx.filterMap fun wk => if q wk.2 then some (swapLanes wk.1) else none

theorem pick_snoc (q : Nat → Prop) [DecidablePred q] (ws : List Word) (w : Word) :
    pick q (ws ++ [w]) = if q ws.length then pick q ws ++ [swapLanes w] else pick q ws := by
  rw [pick, List.zipIdx_append, List.filterMap_append]
  by_cases hq : q ws.length <;> simp [pick, hq]

/-- What the running sum takes of a header: all but the words where the checksum is expected. -/
def added (c : BitVec 16) (ws : List Word) : List (BitVec 16) :=
  pick (fun k => k = 0 ∨ field c k ≠ 10) ws

/-- The checksum field of a header, or what an earlier one left. -/
def checksumFrom (s : State) (ws : List Word) : BitVec 16 :=
  (pick (fun k => 0 < k ∧ field s.cntQ k = 10) ws).getLastD s.headChecksumQ

def totLenFrom (s : State) (ws : List Word) : BitVec 16 :=
  ((pick (fun k => offset s.cntQ k = 2) ws).getLast?.map (· - 2)).getD s.totLenQ

/-- The registers of a header after its first words. -/
structure HeadAt (p : Params) (s : State) (ws : List Word) (h : Head) : Prop where
  cnt : h.cnt = offset s.cntQ ws.length
  ihl : h.ihl = Ipv4Rx.ihl ws
  acc : (⟨h.sum, h.carry⟩ : Acc 16) = (added s.cntQ ws).foldl Acc.add Acc.zero
  drop : h.drop = false ↔ Passes p s ws
  src : p.matchSrcAddr = true → Passes p s ws →
    (h.srcMiss = false ↔ AllAt s.cntQ 12 (fun w => w = p.srcAddr.extractLsb' 16 16) ws)
  dst : p.matchDstAddr = true → Passes p s ws →
    (h.dstMiss = false ↔ AllAt s.cntQ 16 (fun w => w = p.dstAddr.extractLsb' 16 16) ws)

/-- The checks that word `w` meets after the words `ws`. -/
structure Meets (p : Params) (s : State) (ws : List Word) (w : Word) : Prop where
  flags : field s.cntQ ws.length = 6 → w.extractLsb' 5 3 = fragFlag
  protocol : field s.cntQ ws.length = 8 → lane1 w = p.protocol
  src : p.matchSrcAddr = true →
    AllAt s.cntQ 12 (fun w => w = p.srcAddr.extractLsb' 16 16) ws ∧
      (field s.cntQ ws.length = 13 → w = p.srcAddr.extractLsb' 0 16)
  dst : p.matchDstAddr = true →
    AllAt s.cntQ 16 (fun w => w = p.dstAddr.extractLsb' 16 16) ws ∧
      (field s.cntQ ws.length = 17 → w = p.dstAddr.extractLsb' 0 16)

theorem passes_snoc (hne : ws ≠ []) (w : Word) :
    Passes p s (ws ++ [w]) ↔ Passes p s ws ∧ Meets p s ws w := by
  have h0 : (ws ++ [w]).getD 0 0 = ws.getD 0 0 := by
    obtain ⟨v, vs, rfl⟩ := List.exists_cons_of_ne_nil hne
    rfl
  constructor
  · rintro ⟨hc, hv, hf, hp, hs, hsl, hd, hdl⟩
    rw [List.dropLast_concat] at hs hd
    rw [h0] at hv
    rw [allAt_snoc hne] at hf hp
    simp only [allAt_snoc hne] at hsl hdl
    exact ⟨⟨hc, hv, hf.1, hp.1, fun h => (hs h).dropLast, fun h => (hsl h).1,
        fun h => (hd h).dropLast, fun h => (hdl h).1⟩,
      ⟨hf.2, hp.2, fun h => ⟨hs h, (hsl h).2⟩, fun h => ⟨hd h, (hdl h).2⟩⟩⟩
  · rintro ⟨⟨hc, hv, hf, hp, _, hsl, _, hdl⟩, ⟨hf', hp', hs', hd'⟩⟩
    refine ⟨hc, by rwa [h0], (allAt_snoc hne w).2 ⟨hf, hf'⟩, (allAt_snoc hne w).2 ⟨hp, hp'⟩, ?_,
      fun h => (allAt_snoc hne w).2 ⟨hsl h, (hs' h).2⟩, ?_,
      fun h => (allAt_snoc hne w).2 ⟨hdl h, (hd' h).2⟩⟩
    · rw [List.dropLast_concat]
      exact fun h => (hs' h).1
    · rw [List.dropLast_concat]
      exact fun h => (hd' h).1

theorem passes_singleton (w : Word) : Passes p s [w] ↔
    s.bypassVQ = false ∧ w.extractLsb' 4 4 = version := by
  have hnil (j : BitVec 6) (P : Word → Prop) : AllAt s.cntQ j P [] := nofun
  constructor
  · exact fun h => ⟨h.clear, h.version⟩
  · exact fun h => ⟨h.1, h.2, allAt_singleton w, allAt_singleton w, fun _ => hnil _ _,
      fun _ => allAt_singleton w, fun _ => hnil _ _, fun _ => allAt_singleton w⟩

theorem HeadAt.idx (h : HeadAt p s ws hd) : hd.idx = field s.cntQ ws.length := by
  rw [Head.idx, h.cnt, field]

theorem HeadAt.fails_eq (h : HeadAt p s ws hd) (hp : Passes p s ws) (w : Word) :
    hd.fails p ⟨false, w, 2⟩ = false ↔ Meets p s ws w := by
  have hsrc := fun hm => h.src hm hp
  have hdst := fun hm => h.dst hm hp
  simp only [Head.fails, Bool.or_eq_false_iff, Bool.and_eq_false_imp, beq_iff_eq,
    bne_eq_false_iff_eq, h.idx]
  constructor
  · rintro ⟨⟨⟨hf, hpr⟩, hs⟩, hd⟩
    refine ⟨hf, hpr, fun hm => ?_, fun hm => ?_⟩
    · exact ⟨(hsrc hm).1 (hs hm).1, fun hj => ((hs hm).2 hj).symm⟩
    · exact ⟨(hdst hm).1 (hd hm).1, fun hj => ((hd hm).2 hj).symm⟩
  · rintro ⟨hf, hpr, hs, hd⟩
    refine ⟨⟨⟨hf, hpr⟩, fun hm => ?_⟩, fun hm => ?_⟩
    · exact ⟨(hsrc hm).2 (hs hm).1, fun hj => ((hs hm).2 hj).symm⟩
    · exact ⟨(hdst hm).2 (hd hm).1, fun hj => ((hd hm).2 hj).symm⟩

theorem pick_singleton (q : Nat → Prop) [DecidablePred q] (w : Word) :
    pick q [w] = if q 0 then [swapLanes w] else [] := by
  by_cases hq : q 0 <;> simp [pick, hq]

theorem offset_zero (c : BitVec 16) : offset c 0 = c := BitVec.add_zero c

theorem totLenFrom_snoc (s : State) (ws : List Word) (w : Word) :
    totLenFrom s (ws ++ [w]) =
      if offset s.cntQ ws.length = 2 then swapLanes w - 2 else totLenFrom s ws := by
  rw [totLenFrom, pick_snoc]
  split
  · rw [List.getLast?_concat]
    rfl
  · rfl

theorem checksumFrom_snoc (hne : ws ≠ []) (w : Word) :
    checksumFrom s (ws ++ [w]) =
      if field s.cntQ ws.length = 10 then swapLanes w else checksumFrom s ws := by
  have hpos := List.length_pos_of_ne_nil hne
  rw [checksumFrom, pick_snoc]
  by_cases hj : field s.cntQ ws.length = 10
  · rw [if_pos ⟨hpos, hj⟩, if_pos hj, List.getLastD_concat]
  · rw [if_neg fun h => hj h.2, if_neg hj, checksumFrom]

theorem added_snoc (hne : ws ≠ []) (w : Word) :
    added c (ws ++ [w]) =
      if field c ws.length = 10 then added c ws else added c ws ++ [swapLanes w] := by
  have hpos := List.length_pos_of_ne_nil hne
  rw [added, pick_snoc]
  by_cases hj : field c ws.length = 10
  · rw [if_neg (by simp [hj, Nat.ne_of_gt hpos]), if_pos hj, added]
  · rw [if_pos (.inr hj), if_neg hj, added]

theorem readerFrom_first (p : Params) (s : State) (w : Word) : ∃ h,
    readerFrom p s [w] = ⟨.head h, totLenFrom s [w], checksumFrom s [w]⟩ ∧ HeadAt p s [w] h := by
  refine ⟨{ Head.first ⟨true, w, 2⟩ with
    cnt := s.cntQ + 2
    drop := s.bypassVQ || (Head.first ⟨true, w, 2⟩).drop }, ?_, ?_⟩
  · have htl : totLenFrom s [w] = if s.cntQ = 2 then swapLanes w - 2 else s.totLenQ := by
      rw [totLenFrom, pick_singleton, offset_zero]
      split <;> rfl
    rw [readerFrom, List.map_nil, Mealy.run_nil, opened, htl]
    rfl
  · constructor
    · rfl
    · rfl
    · have hadd : added s.cntQ [w] = [swapLanes w] := by
        rw [added, pick_singleton, if_pos (.inl rfl)]
      rw [hadd, List.foldl_cons, List.foldl_nil, Acc.zero_add]
      rfl
    · rw [passes_singleton]
      simp [Head.first]
    · exact fun _ _ => iff_of_true rfl (allAt_singleton w)
    · exact fun _ _ => iff_of_true rfl (allAt_singleton w)

theorem upper_snoc (hne : ws ≠ []) (w x : Word) (h : AllAt c j (fun w => w = x) ws)
    (m : Bool) (hm : m = false ↔ AllAt c j (fun w => w = x) ws) :
    (if field c ws.length = j then x != w else m) = false ↔
      AllAt c j (fun w => w = x) (ws ++ [w]) := by
  rw [allAt_snoc hne]
  by_cases hj : field c ws.length = j
  · rw [if_pos hj, bne_eq_false_iff_eq]
    exact ⟨fun hx => ⟨h, fun _ => hx.symm⟩, fun hx => (hx.2 hj).symm⟩
  · rw [if_neg hj, hm]
    exact ⟨fun hx => ⟨hx, fun h => absurd h hj⟩, fun hx => hx.1⟩

theorem HeadAt.next (h : HeadAt p s ws hd) (hne : ws ≠ []) (w : Word) :
    HeadAt p s (ws ++ [w]) (hd.next p ⟨false, w, 2⟩) := by
  have hsnoc := passes_snoc (p := p) (s := s) hne w
  constructor
  · rw [List.length_append, List.length_singleton, offset_succ, ← h.cnt]
    rfl
  · rw [ihl_snoc hne, ← h.ihl]
    rfl
  · rw [added_snoc hne, Head.next, h.idx]
    by_cases hj : field s.cntQ ws.length = 10
    · simp only [if_pos hj]
      exact h.acc
    · simp only [if_neg hj]
      rw [List.foldl_append, ← h.acc]
      exact head_add hd w
  · rw [hsnoc, ← h.drop]
    change (hd.drop || hd.fails p _) = false ↔ _
    rw [Bool.or_eq_false_iff]
    exact and_congr_right fun hdrop => h.fails_eq (h.drop.1 hdrop) w
  · intro hm hp
    obtain ⟨hpass, hmeets⟩ := hsnoc.1 hp
    rw [Head.next, h.idx]
    exact upper_snoc hne w _ (hmeets.src hm).1 _ (h.src hm hpass)
  · intro hm hp
    obtain ⟨hpass, hmeets⟩ := hsnoc.1 hp
    rw [Head.next, h.idx]
    exact upper_snoc hne w _ (hmeets.dst hm).1 _ (h.dst hm hpass)

theorem HeadAt.ends_eq (h : HeadAt p s ws hd) (w : Word) :
    hd.ends ⟨false, w, 2⟩ = decide (Over s.cntQ (Ipv4Rx.ihl ws) ws.length) := by
  have hover : Over s.cntQ (Ipv4Rx.ihl ws) ws.length ↔
      (offset s.cntQ ws.length + 2).extractLsb' 2 4 ≥ Ipv4Rx.ihl ws ∨
        (offset s.cntQ ws.length).extractLsb' 6 10 ≠ 0 := by
    rw [← offset_succ]
    rfl
  rw [decide_eq_decide.2 hover, Bool.decide_or, Head.ends, h.cnt, h.ihl]
  apply congrArg (_ || ·)
  by_cases hz : (offset s.cntQ ws.length).extractLsb' 6 10 = 0#10 <;> simp [hz]

theorem Reader.next_idle (h : Reader.phase r = .idle) (hs : b.start = false) :
    Reader.next p r b = r := by
  simp [Reader.next, h, hs]

theorem Reader.next_head (h : Head) (tl hc : BitVec 16) (b : Beat) :
    Reader.next p ⟨.head h, tl, hc⟩ b =
      ⟨if h.ends b then
          .data (h.next p b).cnt ((h.next p b).csErr (Reader.headCsNext ⟨.head h, tl, hc⟩ h b))
            (h.next p b).drop true
        else .head (h.next p b),
        Reader.totLenNext ⟨.head h, tl, hc⟩ h.cnt b, Reader.headCsNext ⟨.head h, tl, hc⟩ h b⟩ :=
  rfl

theorem Reader.next_data (c : BitVec 16) (e d f : Bool) (tl hc : BitVec 16) (b : Beat) :
    Reader.next p ⟨.data c e d f, tl, hc⟩ b =
      ⟨if c ≥ tl then .idle else .data (c + b.len.setWidth 16) e (d || e) false,
        Reader.totLenNext ⟨.data c e d f, tl, hc⟩ c b, hc⟩ :=
  rfl

theorem HeadAt.totLen_next (h : HeadAt p s ws hd) (w : Word) :
    Reader.totLenNext ⟨.head hd, totLenFrom s ws, checksumFrom s ws⟩ hd.cnt ⟨false, w, 2⟩ =
      totLenFrom s (ws ++ [w]) := by
  rw [totLenFrom_snoc, Reader.totLenNext, h.cnt]

theorem HeadAt.headCs_next (h : HeadAt p s ws hd) (hne : ws ≠ []) (w : Word) :
    Reader.headCsNext ⟨.head hd, totLenFrom s ws, checksumFrom s ws⟩ hd ⟨false, w, 2⟩ =
      checksumFrom s (ws ++ [w]) := by
  rw [checksumFrom_snoc hne, Reader.headCsNext, h.idx]

theorem readerFrom_head (hne : ws ≠ []) (hk : ws.length < headEnd s.cntQ (ihl ws)) : ∃ h,
    readerFrom p s ws = ⟨.head h, totLenFrom s ws, checksumFrom s ws⟩ ∧ HeadAt p s ws h := by
  induction ws using List.reverseRecOn with
  | nil => exact absurd rfl hne
  | append_singleton ws w ih =>
    by_cases hnil : ws = []
    · subst hnil
      exact readerFrom_first p s w
    rw [ihl_snoc hnil, List.length_append, List.length_singleton] at hk
    obtain ⟨hd, hread, hat⟩ := ih hnil (Nat.lt_of_succ_lt hk)
    have hover : ¬ Over s.cntQ (ihl ws) ws.length := fun h => Nat.ne_of_lt hk
      ((over_iff (List.length_pos_of_ne_nil hnil) (Nat.lt_of_succ_lt hk)).1 h)
    refine ⟨_, ?_, hat.next hnil w⟩
    rw [readerFrom_snoc hnil, hread, Reader.next_head, hat.ends_eq, decide_eq_false hover,
      hat.totLen_next, hat.headCs_next hnil]
    rfl

def headerFrom (s : State) (ws : List Word) : List Word := ws.take (headEnd s.cntQ (ihl ws))

/-- The checksum that is compared differs from the complement of the sum that was taken. -/
def corruptFrom (s : State) (hd : List Word) : Bool :=
  ~~~(OnesComplement.sum (added s.cntQ hd)) != checksumFrom s hd

theorem HeadAt.csErr_eq (h : HeadAt p s ws hd) :
    hd.csErr (checksumFrom s ws) = corruptFrom s ws := by
  have hsum : hd.sum + (BitVec.ofBool hd.carry).setWidth 16 =
      OnesComplement.sum (added s.cntQ ws) := by
    rw [← Acc.total_foldl, ← h.acc]
    rfl
  rw [Head.csErr, hsum, corruptFrom]

theorem readerFrom_headEnd (hk : ws.length = headEnd s.cntQ (ihl ws)) : ∃ d,
    readerFrom p s ws = ⟨.data (offset s.cntQ ws.length) (corruptFrom s ws) d true,
      totLenFrom s ws, checksumFrom s ws⟩ ∧ (d = false ↔ Passes p s ws) := by
  have h2 := two_le_headEnd s.cntQ (ihl ws)
  obtain ⟨front, w, rfl⟩ : ∃ front w, ws = front ++ [w] :=
    ⟨_, _, (List.dropLast_append_getLast (List.ne_nil_of_length_pos (by omega))).symm⟩
  rw [List.length_append, List.length_singleton] at hk
  have hne : front ≠ [] := List.ne_nil_of_length_pos (by omega)
  rw [ihl_snoc hne] at hk
  have hlt : front.length < headEnd s.cntQ (ihl front) := by omega
  obtain ⟨hd, hread, hat⟩ := readerFrom_head (p := p) hne hlt
  have hover := (over_iff (List.length_pos_of_ne_nil hne) hlt).2 hk
  have hnext := hat.next hne w
  refine ⟨_, ?_, hnext.drop⟩
  rw [readerFrom_snoc hne, hread, Reader.next_head, hat.ends_eq, decide_eq_true hover,
    hat.totLen_next, hat.headCs_next hne, hnext.csErr_eq, ← hnext.cnt]
  rfl

def Lasts (s : State) (ws : List Word) (k : Nat) : Prop :=
  ∀ j, headEnd s.cntQ (ihl ws) ≤ j → j < k → offset s.cntQ j < totLenFrom s (ws.take j)

theorem lasts_succ (hk : headEnd s.cntQ (ihl ws) ≤ k) : Lasts s ws (k + 1) ↔
    Lasts s ws k ∧ offset s.cntQ k < totLenFrom s (ws.take k) := by
  constructor
  · exact fun h => ⟨fun j hj hlt => h j hj (Nat.lt_succ_of_lt hlt), h k hk (Nat.lt_succ_self k)⟩
  · rintro ⟨h, hend⟩ j hj hlt
    rcases Nat.eq_or_lt_of_le (Nat.le_of_lt_succ hlt) with rfl | hlt
    · exact hend
    · exact h j hj hlt

theorem lasts_take (h1 : 1 ≤ k) : Lasts s (ws.take k) k ↔ Lasts s ws k := by
  rw [Lasts, Lasts, ihl_take ws h1]
  constructor
  · intro h j hj hlt
    have h' := h j hj hlt
    rwa [List.take_take, Nat.min_eq_left (Nat.le_of_lt hlt)] at h'
  · intro h j hj hlt
    rw [List.take_take, Nat.min_eq_left (Nat.le_of_lt hlt)]
    exact h j hj hlt

/-- The reader past a header: the checks have been made, and after one more word the checksum
counts as well. -/
structure DataAt (p : Params) (s : State) (ws : List Word) (r : Reader) : Prop where
  going : Lasts s ws ws.length → ∃ d,
    r = ⟨.data (offset s.cntQ ws.length) (corruptFrom s (headerFrom s ws)) d
      (decide (ws.length = headEnd s.cntQ (ihl ws))), totLenFrom s ws,
      checksumFrom s (headerFrom s ws)⟩ ∧
    (d = false ↔ Passes p s (headerFrom s ws) ∧
      (corruptFrom s (headerFrom s ws) = false ∨ ws.length = headEnd s.cntQ (ihl ws)))
  ended : ¬ Lasts s ws ws.length → r.phase = .idle

theorem DataAt.next (h : DataAt p s ws r) (hne : ws ≠ [])
    (hk : headEnd s.cntQ (ihl ws) ≤ ws.length) (w : Word) :
    DataAt p s (ws ++ [w]) (r.next p ⟨false, w, 2⟩) := by
  have hihl : ihl (ws ++ [w]) = ihl ws := ihl_snoc hne w
  have hhdr : headerFrom s (ws ++ [w]) = headerFrom s ws := by
    rw [headerFrom, headerFrom, hihl, List.take_append_of_le_length hk]
  have htake : (ws ++ [w]).take ws.length = ws := List.take_left
  have hlasts : Lasts s (ws ++ [w]) (ws ++ [w]).length ↔
      Lasts s ws ws.length ∧ offset s.cntQ ws.length < totLenFrom s ws := by
    rw [List.length_append, List.length_singleton, lasts_succ (by rwa [hihl]),
      ← lasts_take (List.length_pos_of_ne_nil hne), htake]
  have hpast : ws.length + 1 ≠ headEnd s.cntQ (ihl ws) := Nat.ne_of_gt (Nat.lt_succ_of_le hk)
  constructor
  · intro hl
    obtain ⟨hl, hlt⟩ := hlasts.1 hl
    obtain ⟨d, hread, hd⟩ := h.going hl
    refine ⟨d || corruptFrom s (headerFrom s ws), ?_, ?_⟩
    · rw [hread, Reader.next_data, if_neg (BitVec.not_le.2 hlt), hhdr, hihl,
        List.length_append, List.length_singleton, decide_eq_false hpast, totLenFrom_snoc,
        offset_succ, Reader.totLenNext]
      rfl
    · rw [Bool.or_eq_false_iff, hd, hhdr, hihl, List.length_append, List.length_singleton]
      constructor
      · exact fun h => ⟨h.1.1, .inl h.2⟩
      · rintro ⟨hpass, hcor | heq⟩
        · exact ⟨⟨hpass, .inl hcor⟩, hcor⟩
        · exact absurd heq hpast
  · intro hno
    by_cases hl : Lasts s ws ws.length
    · obtain ⟨d, hread, _⟩ := h.going hl
      have hge : offset s.cntQ ws.length ≥ totLenFrom s ws :=
        BitVec.not_lt.1 fun h => hno (hlasts.2 ⟨hl, h⟩)
      rw [hread, Reader.next_data, if_pos hge]
    · rw [Reader.next_idle (h.ended hl) rfl]
      exact h.ended hl

theorem dataAt_headEnd (hk : ws.length = headEnd s.cntQ (ihl ws)) :
    DataAt p s ws (readerFrom p s ws) := by
  have hfull : headerFrom s ws = ws := List.take_of_length_le (Nat.le_of_eq hk)
  obtain ⟨d, hread, hd⟩ := readerFrom_headEnd (p := p) hk
  constructor
  · intro _
    refine ⟨d, ?_, ?_⟩
    · rw [hfull, hread, decide_eq_true hk]
    · rw [hfull, hd]
      exact ⟨fun h => ⟨h, .inr hk⟩, fun h => h.1⟩
  · intro hno
    refine absurd (fun j hj hlt => ?_) hno
    rw [← hk] at hj
    exact absurd hlt (Nat.not_lt.2 hj)

theorem readerFrom_data (hk : headEnd s.cntQ (ihl ws) ≤ ws.length) :
    DataAt p s ws (readerFrom p s ws) := by
  induction ws using List.reverseRecOn with
  | nil => exact absurd hk (Nat.not_le.2 (Nat.lt_of_lt_of_le Nat.two_pos (two_le_headEnd _ _)))
  | append_singleton ws w ih =>
    rcases Nat.eq_or_lt_of_le hk with hend | hlt
    · exact dataAt_headEnd hend.symm
    · have h2 := two_le_headEnd s.cntQ (ihl (ws ++ [w]))
      rw [List.length_append, List.length_singleton] at hlt
      have hne : ws ≠ [] := List.ne_nil_of_length_pos (by omega)
      rw [ihl_snoc hne] at hlt
      rw [readerFrom_snoc hne]
      exact (ih (Nat.le_of_lt_succ hlt)).next hne (Nat.le_of_lt_succ hlt) w

/-- When word `k` of a packet is shown. -/
structure Shows (p : Params) (s : State) (ws : List Word) (k : Nat) : Prop where
  past : headEnd s.cntQ (ihl ws) ≤ k
  passes : Passes p s (headerFrom s ws)
  lasts : Lasts s ws k
  sound : corruptFrom s (headerFrom s ws) = false ∨ k = headEnd s.cntQ (ihl ws)

theorem out_readerFrom_head (hk : k ≤ ws.length) (hlt : k < headEnd s.cntQ (ihl ws)) (b : Beat) :
    (readerFrom p s (ws.take k)).out b = none := by
  by_cases h0 : k = 0
  · rw [h0, List.take_zero]
    rfl
  · have h1 : 1 ≤ k := Nat.pos_of_ne_zero h0
    have hlen : (ws.take k).length = k := List.length_take_of_le hk
    obtain ⟨hd, hread, _⟩ := readerFrom_head (p := p) (s := s)
      (List.ne_nil_of_length_pos (hlen.symm ▸ h1)) (by rwa [hlen, ihl_take ws h1])
    rw [hread]
    rfl

theorem Reader.out_data (c : BitVec 16) (e d f : Bool) (tl hc : BitVec 16) (b : Beat) :
    (∃ u, Reader.out ⟨.data c e d f, tl, hc⟩ b = some u) ↔ d = false := by
  cases d with
  | false => exact iff_of_true ⟨_, rfl⟩ rfl
  | true => exact iff_of_false (fun ⟨_, h⟩ => nomatch h) Bool.noConfusion

theorem Reader.out_idle (h : Reader.phase r = .idle) (b : Beat) : Reader.out r b = none := by
  simp [Reader.out, h]

theorem out_readerFrom (hk : k ≤ ws.length) (hle : headEnd s.cntQ (ihl ws) ≤ k) (b : Beat) :
    (∃ u, (readerFrom p s (ws.take k)).out b = some u) ↔ Shows p s ws k := by
  have h2 := two_le_headEnd s.cntQ (ihl ws)
  have h1 : 1 ≤ k := by omega
  have hlen : (ws.take k).length = k := List.length_take_of_le hk
  have hihl : ihl (ws.take k) = ihl ws := ihl_take ws h1
  have hhdr : headerFrom s (ws.take k) = headerFrom s ws := by
    rw [headerFrom, headerFrom, hihl, List.take_take, Nat.min_eq_left hle]
  have hfull : headEnd s.cntQ (ihl (ws.take k)) ≤ (ws.take k).length := by rwa [hlen, hihl]
  obtain ⟨hgoing, hover⟩ := readerFrom_data (p := p) hfull
  rw [hlen, lasts_take h1] at hgoing hover
  by_cases hl : Lasts s ws k
  · obtain ⟨d, hread, hd⟩ := hgoing hl
    rw [hread, Reader.out_data, hd, hhdr, hihl]
    exact ⟨fun h => ⟨hle, h.1, hl, h.2⟩, fun h => ⟨h.passes, h.sound⟩⟩
  · rw [Reader.out_idle (hover hl)]
    exact iff_of_false (fun ⟨_, h⟩ => nomatch h) fun h => hl h.lasts

theorem Offered.shows_iff (h : Offered s is ws l) (p : Params) :
    (∃ u, (answers (machine p) beat port s is)[k]? = some (some u)) ↔
      k < ws.length ∧ Shows p (found (machine p) beat s is) ws k := by
  rw [h.received p]
  generalize found (machine p) beat s is = s₁
  have hsize : (beats ws l).length = ws.length := List.length_mapIdx
  rw [List.getElem?_mapIdx]
  by_cases hk : k < ws.length
  · rw [List.getElem?_eq_getElem (by rwa [hsize]), Option.map_some, and_iff_right hk]
    simp only [Option.some.injEq]
    by_cases hle : headEnd s₁.cntQ (ihl ws) ≤ k
    · exact out_readerFrom (Nat.le_of_lt hk) hle _
    · rw [out_readerFrom_head (Nat.le_of_lt hk) (Nat.lt_of_not_le hle)]
      exact iff_of_false (fun ⟨_, h⟩ => nomatch h) fun h => hle h.past
  · rw [List.getElem?_eq_none (by rw [hsize]; exact Nat.le_of_not_lt hk)]
    exact iff_of_false (fun ⟨_, h⟩ => nomatch h) fun h => hk h.1

theorem Offered.shown_iff (h : Offered s is ws l) (p : Params) :
    (∃ u, some u ∈ answers (machine p) beat port s is) ↔
      headEnd (found (machine p) beat s is).cntQ (ihl ws) < ws.length ∧
        Passes p (found (machine p) beat s is) (headerFrom (found (machine p) beat s is) ws) := by
  constructor
  · rintro ⟨u, hu⟩
    obtain ⟨k, hk⟩ := List.mem_iff_getElem?.1 hu
    obtain ⟨hlt, hshows⟩ := (h.shows_iff p).1 ⟨u, hk⟩
    exact ⟨Nat.lt_of_le_of_lt hshows.past hlt, hshows.passes⟩
  · rintro ⟨hlt, hpass⟩
    obtain ⟨u, hu⟩ := (h.shows_iff p).2 ⟨hlt, Nat.le_refl _, hpass,
      fun j hj hlt => absurd hlt (Nat.not_lt.2 hj), .inr rfl⟩
    exact ⟨u, List.mem_of_getElem? hu⟩

end LowLatencyEthernet.Ipv4Rx
