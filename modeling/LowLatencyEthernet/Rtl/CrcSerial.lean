import LowLatencyEthernet.Arith.LfsrPolynomial
import LowLatencyEthernet.Rtl.Crc

namespace LowLatencyEthernet.Crc
set_option autoImplicit true

open Lfsr Polynomial

def poly : BitVec 32 := 0x04c11db7

theorem xorBits_xor (v w : BitVec n) (is : List Nat) :
    xorBits (v ^^^ w) is = (xorBits v is ^^ xorBits w is) := by
  induction is with
  | nil => rfl
  | cons i is ih =>
    simp only [xorBits, List.foldr_cons, BitVec.getLsbD_xor] at ih ⊢
    rw [ih]
    exact bool_xor_comm _ _ _ _

theorem getLsbD_xorNetwork (rows : List (List Nat × List Nat)) (lfsr : BitVec 32)
    (data : BitVec n) (i : Nat) :
    (xorNetwork rows lfsr data).getLsbD i = (decide (i < 32) &&
      ((rows.map fun t => xorBits lfsr t.1 ^^ xorBits data t.2).getD i false)) := by
  rw [xorNetwork, BitVec.getLsbD_setWidth, BitVec.getLsbD_ofBoolListLE]

theorem xorNetwork_xor (rows : List (List Nat × List Nat)) (l k : BitVec 32) (d e : BitVec n) :
    xorNetwork rows (l ^^^ k) (d ^^^ e) = xorNetwork rows l d ^^^ xorNetwork rows k e := by
  apply BitVec.eq_of_getLsbD_eq
  intro i hi
  rw [BitVec.getLsbD_xor, getLsbD_xorNetwork, getLsbD_xorNetwork, getLsbD_xorNetwork]
  simp only [List.getD_eq_getElem?_getD, List.getElem?_map]
  cases rows[i]? with
  | none => simp
  | some t =>
    simp only [Option.map_some, Option.getD_some, xorBits_xor, decide_eq_true hi, Bool.true_and]
    exact bool_xor_comm _ _ _ _

theorem xorNetwork_eq_absorb {rows : List (List Nat × List Nat)}
    (hl : ∀ i < 32, xorNetwork rows (BitVec.twoPow 32 i) 0#n =
      absorb poly (BitVec.twoPow 32 i) 0#n)
    (hd : ∀ i < n, xorNetwork rows 0#32 (BitVec.twoPow n i) = absorb poly 0#32 (BitVec.twoPow n i))
    (lfsr : BitVec 32) (data : BitVec n) :
    xorNetwork rows lfsr data = absorb poly lfsr data := by
  have hreg : xorNetwork rows lfsr 0#n = absorb poly lfsr 0#n := by
    apply eq_of_twoPow (f := fun l => xorNetwork rows l 0#n) _ _ hl
    · intro l k
      rw [← xorNetwork_xor, BitVec.xor_self]
    · intro l k
      rw [← absorb_xor, BitVec.xor_self]
  have hdata : xorNetwork rows 0#32 data = absorb poly 0#32 data := by
    apply eq_of_twoPow (f := fun d => xorNetwork rows 0#32 d) _ _ hd
    · intro d e
      rw [← xorNetwork_xor, BitVec.xor_self]
    · intro d e
      rw [← absorb_xor, BitVec.xor_self]
  have hx := xorNetwork_xor rows lfsr 0#32 0#n data
  have ha := absorb_xor poly lfsr 0#32 0#n data
  rw [BitVec.zero_xor, BitVec.xor_zero] at hx ha
  rw [hx, ha, hreg, hdata]

theorem lfsrNextArr0_eq (lfsr : BitVec 32) (data8 : Byte) :
    lfsrNextArr0 lfsr data8 = absorb poly lfsr data8 :=
  xorNetwork_eq_absorb (by decide +kernel) (by decide +kernel) lfsr data8

theorem lfsrNextArr1_eq (lfsr : BitVec 32) (dataI : Word) :
    lfsrNextArr1 lfsr dataI = absorb poly lfsr dataI :=
  xorNetwork_eq_absorb (by decide +kernel) (by decide +kernel) lfsr dataI

/-- The register, set to all ones, after the bytes. -/
def crc32 (bs : List Byte) : BitVec 32 := bs.foldl (absorb poly) (BitVec.allOnes 32)

/-- What the register divides when it takes the bytes, which thirty-two ones come before. -/
noncomputable def dividend (bs : List Byte) : (ZMod 2)[X] :=
  Lfsr.dividend (BitVec.allOnes 32) (bs.flatMap bits)

theorem foldl_absorb (r : BitVec 32) (bs : List Byte) :
    bs.foldl (absorb poly) r = (bs.flatMap bits).foldl (step poly) r := by
  induction bs generalizing r with
  | nil => rfl
  | cons b bs ih =>
    rw [List.foldl_cons, ih, List.flatMap_cons, List.foldl_append]
    rfl

theorem crc32_eq_iff : crc32 as = crc32 bs ↔ generator poly ∣ dividend as + dividend bs := by
  rw [crc32, crc32, foldl_absorb, foldl_absorb]
  exact foldl_eq_iff _ _ _ _ _

/-- The register after a full cycle: the high lane goes in first. -/
theorem lfsrQ_full (hv : i.validI = true) (hl : i.lenI = 2) :
    (next s i).lfsrQ = absorb poly (lfsr s i) i.dataI := by
  have h1 : (2 : BitVec 2) ≠ 1 := by decide
  rw [next, settle_lfsrQ, hv, if_pos rfl, lfsrNext, hl, if_neg h1, if_pos rfl, lfsrNextArr1_eq]

theorem absorb_word (r : BitVec 32) (w : Word) :
    absorb poly r w = absorb poly (absorb poly r (lane1 w)) (lane0 w) := by
  have hw : w = lane1 w ++ lane0 w := (lanes_lane w).symm
  conv => lhs; rw [hw, absorb_append]

theorem lfsrQ_next (hv : i.validI = true) (hl : i.lenI = 1 ∨ i.lenI = 2) :
    (next s i).lfsrQ = (wordBytes (swapLanes i.dataI) i.lenI).foldl (absorb poly) (lfsr s i) := by
  rcases hl with h | h
  · rw [next, settle_lfsrQ, hv, if_pos rfl, lfsrNext, h, if_pos rfl, lfsrNextArr0_eq, wordBytes,
      lane0_swapLanes]
    rfl
  · rw [lfsrQ_full hv h, absorb_word, h, wordBytes, lane0_swapLanes, lane1_swapLanes]
    rfl

theorem lfsrQ_stall (hv : i.validI = false) : (next s i).lfsrQ = s.lfsrQ := by
  rw [next, settle_lfsrQ, hv]
  rfl

end LowLatencyEthernet.Crc
