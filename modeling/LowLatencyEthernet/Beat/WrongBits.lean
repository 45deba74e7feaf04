import Mathlib.Tactic.NormNum.Prime
import LowLatencyEthernet.Arith.LfsrErrors
import LowLatencyEthernet.Arith.Orbit
import LowLatencyEthernet.Beat.FrameCheck

namespace LowLatencyEthernet
set_option autoImplicit true

open Lfsr Function

namespace Crc

def squares : List (BitVec 32) :=
  [0x2, 0x4, 0x10, 0x100, 0x10000, 0x4c11db7, 0x490d678d, 0xe8a45605, 0x75be46b7, 0xe6228b11,
    0x567fddeb, 0x88fe2237, 0xe857e71, 0x7001e426, 0x75de2b2, 0xf12a7f90, 0xf0b4a1c1, 0x58f46c0c,
    0xc3395ade, 0x96837f8c, 0x544037f9, 0x23b7b136, 0xb2e16ba8, 0x725e7bfa, 0xec709b5d, 0xf77a7274,
    0x2845d572, 0x34e2515, 0x79695942, 0x540cb128, 0xb65d023, 0x3c344723]

def square (k : Nat) : List Bool := (List.range 32).map (squares.getD k 0).getLsbD

theorem iterate_shift_one : ∀ i < 32, (shift poly)^[i] 1 = BitVec.twoPow 32 i := by
  decide +kernel

theorem act_square (hk : k ≤ 31) (x : BitVec 32) :
    Orbit.act (shift poly) (square k) x = (shift poly)^[2 ^ k] x :=
  Orbit.act_squares_cyclic (shift_xor poly) iterate_shift_one (by decide +kernel)
    (by decide +kernel) hk x

theorem iterate_round : (shift poly)^[4294967295] 1 = 1 := by
  have hks : ∀ k ∈ List.range 32, k ≤ 31 := fun k hk => Nat.le_of_lt_succ (List.mem_range.1 hk)
  have hjump := Orbit.foldr_act (fun k hk => act_square (hks k hk)) 1
  have hsum : ((List.range 32).map fun k => 2 ^ k).sum = 4294967295 := by decide
  rw [hsum] at hjump
  rw [← hjump]
  decide +kernel

theorem not_period_one (ks : List Nat) (hks : ∀ k ∈ ks, k ≤ 31)
    (hsum : (ks.map fun k => 2 ^ k).sum = m)
    (hne : ks.foldr (fun k y => Orbit.act (shift poly) (square k) y) 1 ≠ 1) :
    ¬ IsPeriodicPt (shift poly) m 1 :=
  Orbit.not_isPeriodicPt (fun k hk => act_square (hks k hk)) hne hsum

theorem minimalPeriod_one : minimalPeriod (shift poly) 1 = 4294967295 := by
  refine Orbit.minimalPeriod_eq iterate_round fun q hq hdvd => ?_
  have hcases : q = 3 ∨ q = 5 ∨ q = 17 ∨ q = 257 ∨ q = 65537 := by
    have hprod : (4294967295 : Nat) = 3 * (5 * (17 * (257 * 65537))) := by decide
    rw [hprod, hq.dvd_mul, hq.dvd_mul, hq.dvd_mul, hq.dvd_mul,
      Nat.prime_dvd_prime_iff_eq hq (by norm_num : Nat.Prime 3),
      Nat.prime_dvd_prime_iff_eq hq (by norm_num : Nat.Prime 5),
      Nat.prime_dvd_prime_iff_eq hq (by norm_num : Nat.Prime 17),
      Nat.prime_dvd_prime_iff_eq hq (by norm_num : Nat.Prime 257),
      Nat.prime_dvd_prime_iff_eq hq (by norm_num : Nat.Prime 65537)] at hdvd
    exact hdvd
  rcases hcases with rfl | rfl | rfl | rfl | rfl
  · exact not_period_one [0, 2, 4, 6, 8, 10, 12, 14, 16, 18, 20, 22, 24, 26, 28, 30] (by decide) rfl
      (by decide +kernel)
  · exact not_period_one [0, 1, 4, 5, 8, 9, 12, 13, 16, 17, 20, 21, 24, 25, 28, 29] (by decide) rfl
      (by decide +kernel)
  · exact not_period_one [0, 1, 2, 3, 8, 9, 10, 11, 16, 17, 18, 19, 24, 25, 26, 27] (by decide) rfl
      (by decide +kernel)
  · exact not_period_one [0, 1, 2, 3, 4, 5, 6, 7, 16, 17, 18, 19, 20, 21, 22, 23] (by decide) rfl
      (by decide +kernel)
  · exact not_period_one [0, 1, 2, 3, 4, 5, 6, 7, 8, 9, 10, 11, 12, 13, 14, 15] (by decide) rfl
      (by decide +kernel)

theorem minimalPeriod_poly : minimalPeriod (shift poly) poly = 4294967295 := by
  have hmem : 1 ∈ periodicPts (shift poly) := mk_mem_periodicPts (by decide) iterate_round
  have hpoly : poly = (shift poly)^[32] 1 := by decide +kernel
  conv => lhs; arg 2; rw [hpoly]
  rw [minimalPeriod_apply_iterate hmem, minimalPeriod_one]

end Crc

namespace MacRx

namespace Arrival

variable (a : Arrival)

def checkedBits : List Bool := ((bytes a.front).drop 8).flatMap bits

def flagged (p : Params) (s : State) : Bool :=
  ((machine p).out ((machine p).run s a.cycles) a.last).crcErrO

theorem flagged_iff (hs : Sim p s .invalid) (h5 : 5 ≤ a.front.length) :
    a.flagged p s = true ↔ a.checkedBits.foldl (step Crc.poly) (BitVec.allOnes 32) ≠ 0 := by
  rw [flagged, a.crcErrO_iff hs, registerAt, List.take_left, if_pos h5, ← a.frontCrc_eq, frontCrc,
    Crc.crc32, Crc.foldl_absorb]
  rfl

theorem length_bytes_full {bs : List Beat} (h : ∀ b ∈ bs, b.len = 2) :
    (bytes bs).length = 2 * bs.length := by
  induction bs with
  | nil => rfl
  | cons b bs ih =>
    have hb : (wordBytes b.data b.len).length = 2 := by
      rw [h b List.mem_cons_self]
      rfl
    rw [bytes, List.flatMap_cons, List.length_append, hb, List.length_cons]
    have hrest := ih fun c hc => h c (List.mem_cons_of_mem _ hc)
    rw [bytes] at hrest
    omega

theorem length_checkedBits : a.checkedBits.length = 8 * (2 * a.front.length - 8) := by
  have hbits (bs : List Byte) : (bs.flatMap bits).length = 8 * bs.length := by
    induction bs with
    | nil => rfl
    | cons b bs ih =>
      rw [List.flatMap_cons, List.length_append, ih, List.length_cons, bits, List.length_map,
        List.length_range]
      omega
  rw [checkedBits, hbits, List.length_drop, length_bytes_full a.front_full]

end Arrival

/-- If a frame passes the check, so does every frame that differs from it in the last beat only. A
frame of the same length is found wrong that differs from it, before the last beat, within 32 bits
or in two bits that are fewer than `2 ^ 32 - 1` apart, which is as far as the powers of `x` modulo
the generator go before they return. -/
theorem wrong_bits (p : Params) {s t : State} (hs : Sim p s .invalid) (ht : Sim p t .invalid)
    (a b : Arrival) (hlen : b.front.length = a.front.length) (h5 : 5 ≤ a.front.length)
    (hpass : a.flagged p s = false) :
    (b.front = a.front → b.flagged p t = false) ∧
      (Wrong 32 4294967295 a.checkedBits b.checkedBits → b.flagged p t = true) ∧
      minimalPeriod (shift Crc.poly) Crc.poly = 4294967295 := by
  have h5b : 5 ≤ b.front.length := by rwa [hlen]
  have hp : Crc.poly.getLsbD 0 = true := by decide
  have hzero : a.checkedBits.foldl (step Crc.poly) (BitVec.allOnes 32) = 0 := by
    by_contra hne
    rw [(a.flagged_iff hs h5).2 hne] at hpass
    cases hpass
  refine ⟨?_, ?_, Crc.minimalPeriod_poly⟩
  · intro hfront
    have hbits : b.checkedBits = a.checkedBits := by
      rw [Arrival.checkedBits, Arrival.checkedBits, hfront]
    rw [Bool.eq_false_iff]
    intro hflag
    rw [b.flagged_iff ht h5b, hbits] at hflag
    exact hflag hzero
  · intro hwrong
    have hsame : a.checkedBits.length = b.checkedBits.length := by
      rw [a.length_checkedBits, b.length_checkedBits, hlen]
    rw [← Crc.minimalPeriod_poly] at hwrong
    have hne := hwrong.foldl_ne hp hsame (BitVec.allOnes 32)
    rw [hzero] at hne
    exact (b.flagged_iff ht h5b).2 hne.symm

def passing : Arrival :=
  .ofWords
    [0x5555, 0x5555, 0x5555, 0xd555, 0x0102, 0x0304, 0x0506, 0x1112, 0x1314, 0x1516, 0x0008,
      0x0045, 0x1d00, 0x0000, 0x0040, 0x1140, 0xce26, 0x000a, 0x0100, 0x000a, 0x0200, 0x3412,
      0x7856, 0x0900, 0x0000, 0x0041, 0x0464, 0xbd75] 0

def damaged : Arrival :=
  .ofWords
    [0x5555, 0x5555, 0x5555, 0xd555, 0x0102, 0x0304, 0x0506, 0x1112, 0x1314, 0x1516, 0x0008,
      0x0045, 0x1d00, 0x0000, 0x0040, 0x1140, 0xce26, 0x000a, 0x0100, 0x000a, 0x0201, 0x3413,
      0x7856, 0x0900, 0x0000, 0x0041, 0x0464, 0xbd75] 0

theorem wrong_damaged : Wrong 32 4294967295 passing.checkedBits damaged.checkedBits := by
  have hfront : passing.checkedBits.take 263 = damaged.checkedBits.take 263 := by decide +kernel
  have hback : passing.checkedBits.drop 295 = damaged.checkedBits.drop 295 := by decide +kernel
  refine .burst 263 (by decide +kernel) fun k hk => ⟨?_, ?_⟩
  · by_contra hlt
    have hget := congrArg (·[k]?) hfront
    simp only [List.getElem?_take_of_lt (Nat.not_le.1 hlt)] at hget
    exact hk hget
  · by_contra hge
    obtain ⟨n, rfl⟩ := Nat.exists_eq_add_of_le (Nat.not_lt.1 hge)
    have hget := congrArg (·[n]?) hback
    simp only [List.getElem?_drop] at hget
    exact hk hget

theorem wrong_bits_sample : damaged.flagged ⟨true⟩ (reset ⟨true⟩ default default) = true := by
  have hs := sim_reset ⟨true⟩ default default
  have hlen : damaged.front.length = passing.front.length := by decide +kernel
  have h5 : 5 ≤ passing.front.length := by decide +kernel
  have hpass : passing.flagged ⟨true⟩ (reset ⟨true⟩ default default) = false := by decide +kernel
  exact (wrong_bits ⟨true⟩ hs hs passing damaged hlen h5 hpass).2.1 wrong_damaged

end MacRx

end LowLatencyEthernet
