import Mathlib.Algebra.Ring.Nat
import Mathlib.Data.List.Basic

namespace LowLatencyEthernet
set_option autoImplicit true

abbrev Byte := BitVec 8

/-- A beat of data, `DATA_W = 16`: the low lane travels first. -/
abbrev Word := BitVec 16

def lane0 (w : Word) : Byte := w.extractLsb' 0 8

def lane1 (w : Word) : Byte := w.extractLsb' 8 8

def lanes (a b : Byte) : Word := b ++ a

/-- `{data[7:0], data[15:8]}`: the number a big endian field holds. -/
def swapLanes (w : Word) : Word := w.extractLsb' 0 8 ++ w.extractLsb' 8 8

theorem getLsbD_lanes (a b : Byte) (i : Nat) :
    (lanes a b).getLsbD i = if i < 8 then a.getLsbD i else b.getLsbD (i - 8) :=
  BitVec.getLsbD_append

@[simp] theorem lane0_lanes (a b : Byte) : lane0 (lanes a b) = a := by
  apply BitVec.eq_of_getLsbD_eq
  intro i hi
  simp only [lane0, BitVec.getLsbD_extractLsb', getLsbD_lanes, hi, Nat.zero_add, decide_true,
    Bool.true_and, ↓reduceIte]

@[simp] theorem lane1_lanes (a b : Byte) : lane1 (lanes a b) = b := by
  apply BitVec.eq_of_getLsbD_eq
  intro i hi
  have h : ¬ 8 + i < 8 := by omega
  simp only [lane1, BitVec.getLsbD_extractLsb', getLsbD_lanes, hi, h, Nat.add_sub_cancel_left,
    decide_true, Bool.true_and, ↓reduceIte]

theorem lanes_lane (w : Word) : lanes (lane0 w) (lane1 w) = w := by
  apply BitVec.eq_of_getLsbD_eq
  intro i hi
  rw [getLsbD_lanes]
  by_cases h : i < 8
  · simp only [lane0, BitVec.getLsbD_extractLsb', h, Nat.zero_add, decide_true, Bool.true_and,
      ↓reduceIte]
  · have h8 : i - 8 < 8 := by omega
    have he : 8 + (i - 8) = i := by omega
    simp only [lane1, BitVec.getLsbD_extractLsb', h, h8, he, decide_true, Bool.true_and,
      ↓reduceIte]

theorem swapLanes_lanes (a b : Byte) : swapLanes (lanes a b) = a ++ b := by
  change lane0 (lanes a b) ++ lane1 (lanes a b) = a ++ b
  rw [lane0_lanes, lane1_lanes]

theorem swapLanes_swapLanes (w : Word) : swapLanes (swapLanes w) = w := by
  have h : swapLanes w = lanes (lane1 w) (lane0 w) := rfl
  rw [h, swapLanes_lanes]
  exact lanes_lane w

theorem lane0_swapLanes (w : Word) : lane0 (swapLanes w) = lane1 w :=
  lane0_lanes (lane1 w) (lane0 w)

theorem lane1_swapLanes (w : Word) : lane1 (swapLanes w) = lane0 w :=
  lane1_lanes (lane1 w) (lane0 w)

theorem lane0_append (a b : Byte) : lane0 (a ++ b) = b := lane0_lanes b a

theorem lane1_append (a b : Byte) : lane1 (a ++ b) = a := lane1_lanes b a

theorem extractLsb'_lane0_low (w : Word) : w.extractLsb' 0 4 = (lane0 w).extractLsb' 0 4 := by
  apply BitVec.eq_of_getLsbD_eq
  intro i hi
  simp [lane0, hi]

theorem extractLsb'_lane0_high (w : Word) : w.extractLsb' 4 4 = (lane0 w).extractLsb' 4 4 := by
  apply BitVec.eq_of_getLsbD_eq
  intro i hi
  simp [lane0, hi]

theorem extractLsb'_field (v : BitVec n) (h : b + m ≤ k) :
    (v.extractLsb' a k).extractLsb' b m = v.extractLsb' (a + b) m := by
  apply BitVec.eq_of_getLsbD_eq
  intro i hi
  have hlt : b + i < k := by omega
  rw [BitVec.getLsbD_extractLsb', BitVec.getLsbD_extractLsb', BitVec.getLsbD_extractLsb',
    decide_eq_true hlt, Bool.true_and, Nat.add_assoc]

theorem extractLsb'_append_high (x : BitVec m) (v : BitVec (a + b)) :
    (x ++ v).extractLsb' a (m + b) = x ++ v.extractLsb' a b := by
  apply BitVec.eq_of_getLsbD_eq
  intro i hi
  rw [BitVec.getLsbD_extractLsb', BitVec.getLsbD_append, BitVec.getLsbD_append,
    decide_eq_true hi, Bool.true_and]
  by_cases hb : i < b
  · rw [if_pos (Nat.add_lt_add_left hb a), if_pos hb, BitVec.getLsbD_extractLsb',
      decide_eq_true hb, Bool.true_and]
  · rw [if_neg (by omega), if_neg hb, Nat.add_sub_add_left]

def wordBytes (w : Word) (len : BitVec 2) : List Byte := [lane0 w, lane1 w].take len.toNat

end LowLatencyEthernet
