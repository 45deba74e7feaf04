import Mathlib.Tactic.NormNum.Prime
import LowLatencyEthernet.Arith.Orbit
import LowLatencyEthernet.Tb.TbRand

namespace LowLatencyEthernet.TbRand
set_option autoImplicit true

open Function

theorem getLsbD_lfsr (x : BitVec 16) (hi : i < 16) : (lfsr x).getLsbD i =
    if i = 15 then x.getLsbD 0 ^^ x.getLsbD 2 ^^ x.getLsbD 3 ^^ x.getLsbD 5
    else x.getLsbD (i + 1) := by
  have hone (j : Nat) : (1#16).getLsbD j = decide (j = 0) := by
    rcases Nat.lt_or_ge j 16 with hj | hj
    · simp [BitVec.getLsbD_one]
    · rw [BitVec.getLsbD_of_ge _ _ hj]
      exact (decide_eq_false (by omega)).symm
  by_cases h : i = 15
  · subst h
    simp [lfsr]
  · have hsub : i - 15 = 0 := by omega
    have hlt : i < 15 := by omega
    have hcomm : 1 + i = i + 1 := Nat.add_comm 1 i
    simp [lfsr, h, hlt, hcomm]

theorem lfsr_xor (x y : BitVec 16) : lfsr (x ^^^ y) = lfsr x ^^^ lfsr y := by
  apply BitVec.eq_of_getLsbD_eq
  intro i hi
  rw [BitVec.getLsbD_xor, getLsbD_lfsr _ hi, getLsbD_lfsr _ hi, getLsbD_lfsr _ hi]
  simp only [BitVec.getLsbD_xor]
  split
  · cases x.getLsbD 0 <;> cases x.getLsbD 2 <;> cases x.getLsbD 3 <;> cases x.getLsbD 5 <;> simp
  · rfl

def squares : List (BitVec 16) :=
  [0x2, 0x4, 0x10, 0x100, 0x2d, 0x451, 0x13d1, 0x7c98, 0x18a, 0x4069, 0xc41b, 0x92d0, 0x3dab,
    0xd4f8, 0xebd5, 0x7f8d]

def square (k : Nat) : List Bool := (List.range 16).map (squares.getD k 0).getLsbD

def jump (ks : List Nat) (x : BitVec 16) : BitVec 16 :=
  ks.foldr (fun k y => Orbit.act lfsr (square k) y) x

theorem square_first : ∀ i < 16,
    Orbit.act lfsr (square 0) (BitVec.twoPow 16 i) = lfsr (BitVec.twoPow 16 i) := by
  decide +kernel

theorem square_next : ∀ k < 15, ∀ i < 16,
    Orbit.act lfsr (square k) (Orbit.act lfsr (square k) (BitVec.twoPow 16 i)) =
      Orbit.act lfsr (square (k + 1)) (BitVec.twoPow 16 i) := by
  decide +kernel

theorem jump_eq {ks : List Nat} (hks : ∀ k ∈ ks, k ≤ 15) (x : BitVec 16) :
    jump ks x = lfsr^[(ks.map fun k => 2 ^ k).sum] x :=
  Orbit.foldr_act
    (fun k hk => Orbit.act_squares lfsr_xor square_first square_next (hks k hk)) x

theorem jump_round : ∀ i < 16, jump (List.range 16) (BitVec.twoPow 16 i) = BitVec.twoPow 16 i := by
  decide +kernel

theorem iterate_round (x : BitVec 16) : lfsr^[65535] x = x := by
  have hks : ∀ k ∈ List.range 16, k ≤ 15 := fun k hk => Nat.le_of_lt_succ (List.mem_range.1 hk)
  have hjump := jump_eq hks x
  have hsum : ((List.range 16).map fun k => 2 ^ k).sum = 65535 := by decide
  rw [hsum] at hjump
  rw [← hjump]
  exact Lfsr.eq_of_twoPow (f := jump (List.range 16)) (g := fun x => x)
    (Orbit.foldr_act_xor lfsr_xor square (List.range 16)) (fun _ _ => rfl) jump_round x

theorem not_period_one (ks : List Nat) (hks : ∀ k ∈ ks, k ≤ 15)
    (hsum : (ks.map fun k => 2 ^ k).sum = m)
    (hne : jump ks 1 ≠ 1) : ¬ IsPeriodicPt lfsr m 1 :=
  Orbit.not_isPeriodicPt
    (fun k hk => Orbit.act_squares lfsr_xor square_first square_next (hks k hk)) hne hsum

theorem minimalPeriod_one : minimalPeriod lfsr 1 = 65535 := by
  refine Orbit.minimalPeriod_eq (iterate_round 1) fun q hq hdvd => ?_
  have hcases : q = 3 ∨ q = 5 ∨ q = 17 ∨ q = 257 := by
    have hprod : (65535 : Nat) = 3 * (5 * (17 * 257)) := by decide
    rw [hprod, hq.dvd_mul, hq.dvd_mul, hq.dvd_mul,
      Nat.prime_dvd_prime_iff_eq hq (by norm_num : Nat.Prime 3),
      Nat.prime_dvd_prime_iff_eq hq (by norm_num : Nat.Prime 5),
      Nat.prime_dvd_prime_iff_eq hq (by norm_num : Nat.Prime 17),
      Nat.prime_dvd_prime_iff_eq hq (by norm_num : Nat.Prime 257)] at hdvd
    exact hdvd
  rcases hcases with rfl | rfl | rfl | rfl
  · exact not_period_one [0, 2, 4, 6, 8, 10, 12, 14] (by decide) rfl (by decide +kernel)
  · exact not_period_one [0, 1, 4, 5, 8, 9, 12, 13] (by decide) rfl (by decide +kernel)
  · exact not_period_one [0, 1, 2, 3, 8, 9, 10, 11] (by decide) rfl (by decide +kernel)
  · exact not_period_one [0, 1, 2, 3, 4, 5, 6, 7] (by decide) rfl (by decide +kernel)

theorem lfsr_ne_zero (hx : x ≠ 0) : lfsr x ≠ 0 := by
  intro hz
  have hfix : lfsr^[65534] 0 = 0 := iterate_fixed (by decide) 65534
  have hround := iterate_round x
  rw [show 65535 = 65534 + 1 from rfl, iterate_add_apply, iterate_one, hz, hfix] at hround
  exact hx hround.symm

def nonzero : Finset (BitVec 16) := Finset.univ.erase 0

theorem mem_nonzero : x ∈ nonzero ↔ x ≠ 0 := by simp [nonzero]

theorem card_nonzero : nonzero.card = 65535 := by
  rw [nonzero, Finset.card_erase_of_mem (Finset.mem_univ _), Finset.card_univ,
    ← FinEnum.card_eq_fintypeCard, FinEnum.card_bitVec]
  decide

theorem minimalPeriod_lfsr (hx : x ≠ 0) : minimalPeriod lfsr x = 65535 := by
  have hclosed : ∀ y ∈ nonzero, lfsr y ∈ nonzero := fun y hy =>
    mem_nonzero.2 (lfsr_ne_zero (mem_nonzero.1 hy))
  have hone : (1 : BitVec 16) ∈ nonzero := mem_nonzero.2 (by decide)
  have hper : minimalPeriod lfsr 1 = nonzero.card := by rw [minimalPeriod_one, card_nonzero]
  obtain ⟨k, ⟨-, rfl⟩, -⟩ := Orbit.existsUnique_iterate hclosed hone hper (mem_nonzero.2 hx)
  have hmem : (1 : BitVec 16) ∈ periodicPts lfsr :=
    mk_mem_periodicPts (by decide) (iterate_round 1)
  rw [minimalPeriod_apply_iterate hmem, minimalPeriod_one]

theorem existsUnique_lfsr (hx : x ≠ 0) (hy : y ≠ 0) : ∃! k, k < 65535 ∧ lfsr^[k] x = y := by
  have hclosed : ∀ y ∈ nonzero, lfsr y ∈ nonzero := fun y hy =>
    mem_nonzero.2 (lfsr_ne_zero (mem_nonzero.1 hy))
  have hper : minimalPeriod lfsr x = nonzero.card := by
    rw [minimalPeriod_lfsr hx, card_nonzero]
  rw [← card_nonzero]
  exact Orbit.existsUnique_iterate hclosed (mem_nonzero.2 hx) hper (mem_nonzero.2 hy)

/-- The numbers the other files draw. -/
inductive Call where
  | packetLen
  | uint64
  | uint48
  | uint32
  | uint16
  | uint8
  | fillPacket (len : Nat)
deriving DecidableEq, Repr

def Call.next (seed : BitVec 16) (s : State) : Call → State
  | .packetLen => (getPacketLen seed s).2
  | .uint64 => (TbRand.uint64 seed s).2
  | .uint48 => (TbRand.uint48 seed s).2
  | .uint32 => (TbRand.uint32 seed s).2
  | .uint16 => (TbRand.uint16 seed s).2
  | .uint8 => (TbRand.uint8 seed s).2
  | .fillPacket len => (TbRand.fillPacket seed s len).2

def Call.ticks : Call → Nat
  | .packetLen => 1
  | .uint64 => 4
  | .uint48 => 3
  | .uint32 => 2
  | .uint16 => 1
  | .uint8 => 1
  | .fillPacket len => len

def after (seed : BitVec 16) (s : State) (cs : List Call) : State := cs.foldl (Call.next seed) s

def ticks (cs : List Call) : Nat := (cs.map Call.ticks).sum

theorem wideLoop_state (n i : Nat) (r : BitVec 64) (s : State) :
    (wideLoop n i r s).2 = tick^[n] s := by
  induction n generalizing i r s with
  | zero => rfl
  | succ n ih => exact ih _ _ _

theorem fillLoop_state (s : State) (n : Nat) : (fillLoop s n).2 = tick^[n] s := by
  induction n generalizing s with
  | zero => rfl
  | succ n ih => exact ih _

theorem Call.next_eq (c : Call) (seed : BitVec 16) (s : State) :
    c.next seed s = tick^[c.ticks] (start seed s) := by
  cases c with
  | uint64 => exact wideLoop_state 4 0 0 _
  | uint32 => exact wideLoop_state 2 0 0 _
  | fillPacket len => exact fillLoop_state _ len
  | _ => rfl

theorem tick_iterate (n : Nat) (s : State) : tick^[n] s = ⟨s.lfsrInit, lfsr^[n] s.lfsr⟩ := by
  induction n generalizing s with
  | zero => rfl
  | succ n ih =>
    rw [iterate_succ_apply, ih]
    rfl

theorem lfsrInit_start (seed : BitVec 16) (s : State) : (start seed s).lfsrInit = true := by
  unfold start
  split
  · rfl
  · exact Bool.eq_true_of_not_eq_false ‹_›

theorem start_of_init (h : s.lfsrInit = true) : start seed s = s := by
  rw [start, h]
  rfl

theorem start_next (c : Call) (seed : BitVec 16) (s : State) :
    start seed (c.next seed s) = c.next seed s := by
  apply start_of_init
  rw [c.next_eq, tick_iterate]
  exact lfsrInit_start seed s

theorem start_after (seed : BitVec 16) (s : State) (cs : List Call) :
    start seed (after seed s cs) = tick^[ticks cs] (start seed s) := by
  induction cs generalizing s with
  | nil => rfl
  | cons c cs ih =>
    have hrest : start seed (after seed s (c :: cs)) = _ := ih (c.next seed s)
    have hsum : ticks (c :: cs) = ticks cs + c.ticks := Nat.add_comm _ _
    rw [hrest, start_next, c.next_eq, hsum, iterate_add_apply]

theorem register_after (seed : BitVec 16) (s : State) (cs : List Call) :
    (start seed (after seed s cs)).lfsr = lfsr^[ticks cs] (start seed s).lfsr := by
  rw [start_after, tick_iterate]

theorem start_eq_iff : start seed s = start seed s' ↔
    (start seed s).lfsr = (start seed s').lfsr := by
  constructor
  · exact congrArg State.lfsr
  · intro h
    have hinit : (start seed s).lfsrInit = (start seed s').lfsrInit := by
      rw [lfsrInit_start, lfsrInit_start]
    exact congrArg₂ State.mk hinit h

theorem iterate_ne_zero (hx : x ≠ 0) (n : Nat) : lfsr^[n] x ≠ 0 := by
  induction n with
  | zero => exact hx
  | succ n ih =>
    rw [iterate_succ_apply']
    exact lfsr_ne_zero ih

theorem iterate_eq_iff (hx : x ≠ 0) : lfsr^[m] x = lfsr^[n] x ↔ m % 65535 = n % 65535 := by
  have hper := minimalPeriod_lfsr hx
  rw [← iterate_mod_minimalPeriod_eq (n := m), ← iterate_mod_minimalPeriod_eq (n := n), hper]
  apply iterate_eq_iterate_iff_of_lt_minimalPeriod
  · rw [hper]
    exact Nat.mod_lt _ (by decide)
  · rw [hper]
    exact Nat.mod_lt _ (by decide)

/-- What is drawn from a state on, whatever has been drawn in between. -/
structure FullPeriod (seed : BitVec 16) (s : State) : Prop where
  nonzero : ∀ cs, (start seed (after seed s cs)).lfsr ≠ 0
  state : ∀ cs cs', start seed (after seed s cs) = start seed (after seed s cs') ↔
    ticks cs % 65535 = ticks cs' % 65535
  numbers : ∀ cs v, v ≠ 0 → ∃! k, k < 65535 ∧
    (uint16 seed (after seed s (cs ++ List.replicate k .uint16))).1 = v

theorem uint16_after (seed : BitVec 16) (s : State) (cs : List Call) (k : Nat) :
    (uint16 seed (after seed s (cs ++ List.replicate k .uint16))).1 =
      lfsr^[k] (lfsr (start seed (after seed s cs)).lfsr) := by
  have hticks : ticks (List.replicate k .uint16) = k := by
    rw [ticks, List.map_replicate, List.sum_replicate]
    exact Nat.mul_one k
  have hsplit : after seed s (cs ++ List.replicate k .uint16) =
      after seed (after seed s cs) (List.replicate k .uint16) := List.foldl_append
  have hdraw (s' : State) : (uint16 seed s').1 = lfsr (start seed s').lfsr := rfl
  rw [hdraw, hsplit, register_after, hticks, ← iterate_succ_apply' lfsr, iterate_succ_apply]

/-- The register takes all numbers but zero in turn unless it is started with zero. -/
theorem fullPeriod_iff (seed : BitVec 16) (s : State) :
    FullPeriod seed s ↔ (start seed s).lfsr ≠ 0 := by
  constructor
  · exact fun h => h.nonzero []
  intro hx
  have hreg (cs : List Call) : (start seed (after seed s cs)).lfsr ≠ 0 := by
    rw [register_after]
    exact iterate_ne_zero hx _
  refine ⟨hreg, fun cs cs' => ?_, fun cs v hv => ?_⟩
  · rw [start_eq_iff, register_after, register_after, iterate_eq_iff hx]
  · simp only [uint16_after]
    exact existsUnique_lfsr (lfsr_ne_zero (hreg cs)) hv

end LowLatencyEthernet.TbRand
