import LowLatencyEthernet.Beat.Ipv4Counter
import LowLatencyEthernet.Beat.Verdicts

namespace LowLatencyEthernet.Ipv4Rx
set_option autoImplicit true

open Sync OnesComplement

/-- The counter and the filter are clear when a packet begins. -/
structure Clear (s : State) : Prop where
  cnt : s.cntQ = 0
  bypass : s.bypassVQ = false

/-- Idle, with the counter and the filter clear. -/
structure Ready (s : State) : Prop where
  idle : s.fsmIdleQ = true ∧ s.fsmHeadQ = false ∧ s.fsmDataQ = false
  settled : Settled s

theorem ready_of_idle (hs : s.fsmIdleQ = true ∧ s.fsmHeadQ = false ∧ s.fsmDataQ = false)
    (hst : i.startI = false) : Ready (next p true s i) := by
  obtain ⟨hi, hh, hd⟩ := hs
  refine ⟨⟨?_, ?_, ?_⟩, settle hst hi⟩
  · simp [next, fsmIdleNext, hi, hst]
  · simp [next, fsmHeadNext, hi, hh, hst]
  · simp [next, fsmDataNext, hh, hd]

theorem Ready.clear (h : Ready s) : Clear s := by
  obtain ⟨hc, hb⟩ := h.settled h.idle.1
  exact ⟨hc, hb⟩

/-- The words `ws` as one packet, the last beat `l` bytes long, presented to a receiver that is
ready for it. -/
structure Presented (s : State) (is : List In) (ws : List Word) (l : BitVec 2) : Prop where
  ready : Ready s
  carried : Carried beat Contract is (beats ws l)
  last : l = 1 ∨ l = 2
  nonempty : ws ≠ []

theorem Presented.offered (h : Presented s is ws l) : Offered s is ws l :=
  ⟨h.ready.idle, h.carried, h.nonempty⟩

/-- The idle reader. The total length and the checksum field are what an earlier packet left. -/
def idleReader (s : State) : Reader := ⟨.idle, s.totLenQ, s.headChecksumQ⟩

theorem Presented.found_ready (h : Presented s is ws l) (p : Params) :
    Clear (found (machine p) beat s is) ∧
      idleReader (found (machine p) beat s is) = idleReader s := by
  have hs : Sim s (idleReader s) ∧ Settled s := ⟨⟨h.ready.idle, rfl, rfl⟩, h.ready.settled⟩
  obtain ⟨hsim, hset⟩ := found_of_stall (m := machine p)
    (P := fun t => Sim t (idleReader s) ∧ Settled t)
    (fun h hb => ⟨h.1.stall hb, h.2.stall hb⟩) hs is
  obtain ⟨hc, hb⟩ := hset hsim.reads.1
  obtain ⟨htl, hcs⟩ := hsim.bounded
  refine ⟨⟨hc, hb⟩, ?_⟩
  rw [idleReader, htl, hcs]
  rfl

theorem start_beats {b : Beat} (hb : b ∈ (beats ws l).drop (k + 1)) : b.start = false := by
  obtain ⟨j, hj⟩ := List.mem_iff_getElem?.1 hb
  rw [List.getElem?_drop, beats, List.getElem?_mapIdx, Option.map_eq_some_iff] at hj
  obtain ⟨w, _, rfl⟩ := hj
  exact decide_eq_false (by omega)

theorem Presented.received (h : Presented s is ws l) (p : Params) :
    Reads ((machine p).run s is) ((transducer p).run (idleReader s) (beats ws l)) := by
  obtain ⟨w, ws, rfl⟩ := List.exists_cons_of_ne_nil h.nonempty
  obtain ⟨hclear, hidle⟩ := h.found_ready p
  have hreads := (h.offered.reads (beats_cons w ws l) p).1
  rw [opened_clear (p := p) ⟨hclear.cnt, hclear.bypass⟩ rfl] at hreads
  rw [beats_cons, ← hidle]
  exact hreads

theorem Clear.readerFrom_eq (h : Clear s) (p : Params) (ws : List Word) :
    readerFrom p s ws = (transducer p).run (idleReader s) (beats ws 2) := by
  cases ws with
  | nil => rfl
  | cons w ws =>
    have htail : (ws.mapIdx fun k w => (⟨false, w, if k + 1 = ws.length then 2 else 2⟩ : Beat)) =
        ws.map fun w => ⟨false, w, 2⟩ := by
      apply List.ext_getElem <;> simp
    rw [beats_cons, ite_self, htail, readerFrom, opened_clear (p := p) ⟨h.cnt, h.bypass⟩ rfl]
    rfl

theorem Clear.headEnd_eq (h : Clear s) (ws : List Word) :
    headEnd s.cntQ (ihl ws) = headWords ws := by
  have h2 : ((0 : BitVec 16) + 2).toNat = 2 := rfl
  rw [h.cnt, headEnd, headWords, h2]
  split_ifs <;> omega

theorem Clear.header_eq (h : Clear s) (ws : List Word) : headerFrom s ws = header ws := by
  rw [headerFrom, h.headEnd_eq, header]

theorem readerAt_header (p : Params) (tl hc : BitVec 16) (hN : headWords ws ≤ ws.length) : ∃ c t x,
    readerAt p tl hc (header ws) =
      ⟨.data c (corrupt hc (header ws)) (filtered p (header ws)) true, t, x⟩ := by
  have h2 := two_le_headWords ws
  have hlen : (header ws).length = headWords ws := List.length_take_of_le hN
  have hhw : headWords (header ws) = headWords ws := headWords_take ws (by omega)
  have hhd : header (header ws) = header ws := header_take ws (Nat.le_refl _)
  have hlt := headWords_lt_packetWords (header ws)
  have hr : readerAt p tl hc (header ws) = _ := readerAt_data (by omega) (by omega)
  rw [hhd, hhw, hlen, decide_eq_true rfl, decide_eq_false (Nat.lt_irrefl _), Bool.and_false,
    Bool.or_false] at hr
  exact ⟨_, _, _, hr⟩

theorem Clear.verdicts (h : Clear s) (hN : headWords ws ≤ ws.length) (p : Params) :
    corruptFrom s (header ws) = corrupt s.headChecksumQ (header ws) ∧
      (Passes p s (header ws) ↔ filtered p (header ws) = false) := by
  have h2 := two_le_headWords ws
  have hlen : (header ws).length = headWords ws := List.length_take_of_le hN
  have hhw : headWords (header ws) = headWords ws := headWords_take ws (by omega)
  have hfull : (header ws).length = headEnd s.cntQ (ihl (header ws)) := by
    rw [h.headEnd_eq, hhw, hlen]
  obtain ⟨d, hread, hd⟩ := readerFrom_headEnd (p := p) hfull
  obtain ⟨c, t, x, hat⟩ := readerAt_header p s.totLenQ s.headChecksumQ hN
  rw [h.readerFrom_eq, idleReader, run_beats_header (by omega), hat] at hread
  simp only [Reader.mk.injEq, Phase.data.injEq] at hread
  obtain ⟨⟨_, hcor, hfil, _⟩, _⟩ := hread
  refine ⟨hcor.symm, ?_⟩
  rw [hfil, hd]

theorem Clear.totLenFrom_eq (h : Clear s) (h2 : 2 ≤ ws.length) (hlen : ws.length ≤ 32768) :
    totLenFrom s ws = totLen ws - 2 := by
  induction ws using List.reverseRecOn with
  | nil => exact absurd h2 (Nat.not_succ_le_zero 1)
  | append_singleton ws w ih =>
    rw [List.length_append, List.length_singleton] at h2 hlen
    have hoff : offset s.cntQ ws.length = 2 ↔ ws.length = 1 := by
      rw [← BitVec.toNat_inj, toNat_offset, h.cnt, show (2 : BitVec 16).toNat = 2 from rfl,
        show (0 : BitVec 16).toNat = 0 from rfl]
      omega
    rw [totLenFrom_snoc]
    by_cases h1 : ws.length = 1
    · rw [if_pos (hoff.2 h1)]
      obtain ⟨v, rfl⟩ := List.length_eq_one_iff.1 h1
      rfl
    · have h2' : 2 ≤ ws.length := by omega
      rw [if_neg (mt hoff.1 h1), ih h2' (by omega), totLen_snoc h2']

theorem Clear.lasts (h : Clear s) (hk : k ≤ ws.length) (hM : k < packetWords ws) :
    Lasts s ws k := by
  have hpw := packetWords_le ws
  have h2 := two_le_headWords ws
  have hdef : packetWords ws = max (headWords ws + 1) (((totLen ws).toNat + 1) / 2) := rfl
  intro j hj hlt
  rw [h.headEnd_eq] at hj
  have hlen : (ws.take j).length = j := List.length_take_of_le (by omega)
  rw [h.totLenFrom_eq (by omega) (by omega), totLen_take ws (by omega)]
  have hT : 2 ≤ (totLen ws).toNat := by omega
  have hsub : (totLen ws - 2).toNat = (totLen ws).toNat - 2 :=
    BitVec.toNat_sub_of_le (BitVec.le_def.2 hT)
  rw [BitVec.lt_def, hsub, toNat_offset, h.cnt, show (0 : BitVec 16).toNat = 0 from rfl]
  omega

theorem Clear.shows_iff (h : Clear s) (hk : k ≤ ws.length) (hM : k < packetWords ws) :
    Shows p s ws k ↔ headWords ws ≤ k ∧ filtered p (header ws) = false ∧
      (corrupt s.headChecksumQ (header ws) = false ∨ k = headWords ws) := by
  constructor
  · rintro ⟨hpast, hpass, _, hsound⟩
    rw [h.headEnd_eq] at hpast hsound
    obtain ⟨hcor, hiff⟩ := h.verdicts (Nat.le_trans hpast hk) p
    rw [h.header_eq] at hpass hsound
    rw [hcor] at hsound
    exact ⟨hpast, hiff.1 hpass, hsound⟩
  · rintro ⟨hpast, hpass, hsound⟩
    obtain ⟨hcor, hiff⟩ := h.verdicts (Nat.le_trans hpast hk) p
    refine ⟨?_, ?_, h.lasts hk hM, ?_⟩
    · rwa [h.headEnd_eq]
    · rw [h.header_eq]
      exact hiff.2 hpass
    · rw [h.header_eq, hcor, h.headEnd_eq]
      exact hsound

def feed (b : Beat) : In := ⟨false, true, b.start, b.data, b.len⟩

def between : State := ⟨true, false, false, 0, 0, 0, 0, false, ⟨false⟩, ⟨false⟩, false, 0, false⟩

theorem presented_feed (hne : ws ≠ []) : Presented between ((beats ws 2).map feed) ws 2 where
  ready := ⟨⟨rfl, rfl, rfl⟩, fun _ => ⟨rfl, rfl⟩⟩
  carried := by
    constructor
    · rw [List.filterMap_map]
      exact (List.filterMap_congr fun _ _ => rfl).trans List.filterMap_some
    · intro i hi _
      obtain ⟨b, _, rfl⟩ := List.mem_map.1 hi
      rfl
  last := .inr rfl
  nonempty := hne

theorem found_feed (p : Params) (hne : ws ≠ []) :
    found (machine p) beat s ((beats ws l).map feed) = s := by
  obtain ⟨w, ws, rfl⟩ := List.exists_cons_of_ne_nil hne
  rw [beats_cons]
  rfl

theorem clear_between : Clear between := ⟨rfl, rfl⟩

end LowLatencyEthernet.Ipv4Rx
