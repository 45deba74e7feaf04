import Mathlib.Algebra.CharP.Two
import Mathlib.Algebra.Field.ZMod
import Mathlib.Algebra.Polynomial.Degree.Lemmas
import Mathlib.Algebra.Polynomial.Monic
import Mathlib.Tactic.LinearCombination
import LowLatencyEthernet.Arith.Lfsr

namespace Lfsr
set_option autoImplicit true

open Polynomial

/-! Shift registers as polynomials over the field of two elements. -/

/-- The polynomial of a register, bit `i` being the coefficient of `X ^ i`. -/
noncomputable def ofReg (r : BitVec n) : (ZMod 2)[X] :=
  ∑ i ∈ Finset.range n, if r.getLsbD i then X ^ i else 0

/-- The polynomial of a string, the leading coefficient first. -/
noncomputable def ofBits : List Bool → (ZMod 2)[X]
  | [] => 0
  | b :: bs => (if b then X ^ bs.length else 0) + ofBits bs

noncomputable def generator (poly : BitVec n) : (ZMod 2)[X] := X ^ n + ofReg poly

/-- What a register that holds `r` divides when it takes the string `bs`. -/
noncomputable def dividend (r : BitVec n) (bs : List Bool) : (ZMod 2)[X] :=
  ofReg r * X ^ bs.length + ofBits bs * X ^ n

theorem coeff_ofReg (r : BitVec n) (i : Nat) :
    (ofReg r).coeff i = if r.getLsbD i then 1 else 0 := by
  have hterm (j : Nat) : (if r.getLsbD j then X ^ j else 0 : (ZMod 2)[X]).coeff i =
      if i = j then (if r.getLsbD j then 1 else 0) else 0 := by
    split <;> simp [coeff_X_pow]
  rw [ofReg, finsetSum_coeff]
  simp only [hterm, Finset.sum_ite_eq, Finset.mem_range]
  by_cases hi : i < n
  · rw [if_pos hi]
  · rw [if_neg hi, BitVec.getLsbD_of_ge r i (Nat.le_of_not_lt hi)]
    rfl

theorem ofReg_eq_zero {r : BitVec n} (h : ofReg r = 0) : r = 0#n := by
  apply BitVec.eq_of_getLsbD_eq
  intro i _
  have hi := coeff_ofReg r i
  rw [h, coeff_zero] at hi
  cases hb : r.getLsbD i with
  | false => exact BitVec.getLsbD_zero.symm
  | true =>
    rw [hb] at hi
    exact absurd hi zero_ne_one

theorem ofReg_xor (r s : BitVec n) : ofReg (r ^^^ s) = ofReg r + ofReg s := by
  ext i
  rw [coeff_add, coeff_ofReg, coeff_ofReg, coeff_ofReg, BitVec.getLsbD_xor]
  cases r.getLsbD i <;> cases s.getLsbD i <;> decide

theorem degree_ofReg (r : BitVec n) : (ofReg r).degree < n := by
  rw [degree_lt_iff_coeff_zero]
  intro i hi
  rw [coeff_ofReg, BitVec.getLsbD_of_ge r i hi]
  rfl

theorem ofReg_shiftLeft (r : BitVec n) :
    ofReg (r <<< 1) = X * ofReg r + if r.msb then X ^ n else 0 := by
  have htop (i : Nat) : (if r.msb then X ^ n else 0 : (ZMod 2)[X]).coeff i =
      if i = n ∧ r.getLsbD (n - 1) = true then 1 else 0 := by
    rw [BitVec.msb_eq_getLsbD_last]
    cases r.getLsbD (n - 1) <;> simp [coeff_X_pow]
  ext i
  cases i with
  | zero =>
    have hlow : ¬ (0 = n ∧ r.getLsbD (n - 1) = true) := by
      rintro ⟨rfl, hb⟩
      rw [BitVec.getLsbD_of_ge r _ (Nat.zero_le _)] at hb
      cases hb
    rw [coeff_add, coeff_X_mul_zero, htop, if_neg hlow, coeff_ofReg]
    simp
  | succ i =>
    rw [coeff_add, coeff_X_mul, htop, coeff_ofReg, coeff_ofReg, BitVec.getLsbD_shiftLeft]
    rcases Nat.lt_trichotomy (i + 1) n with h | rfl | h
    · simp [h, Nat.ne_of_lt h]
    · rw [Nat.add_sub_cancel]
      cases r.getLsbD i with
      | false => simp
      | true =>
        simp
        decide
    · have hge := BitVec.getLsbD_of_ge r i (Nat.le_of_lt_succ h)
      simp [hge, Nat.ne_of_gt h]

theorem ofReg_step (poly r : BitVec n) (b : Bool) : ofReg (step poly r b) =
    X * ofReg r + (if b then X ^ n else 0) + if r.msb ^^ b then generator poly else 0 := by
  have h2 : (2 : (ZMod 2)[X]) = 0 := CharTwo.two_eq_zero
  have h0 : ofReg 0#n = 0 := by
    ext i
    rw [coeff_ofReg]
    simp
  rw [step, ofReg_xor, ofReg_shiftLeft]
  cases r.msb <;> cases b
  · simp [h0]
  · simp only [generator, Bool.false_xor, Bool.false_eq_true, ↓reduceIte]
    linear_combination -X ^ n * h2
  · simp [generator, add_assoc]
  · simp [h0]

theorem generator_dvd_foldl (poly r : BitVec n) (bs : List Bool) :
    generator poly ∣ ofReg (bs.foldl (step poly) r) + dividend r bs := by
  have h2 : (2 : (ZMod 2)[X]) = 0 := CharTwo.two_eq_zero
  induction bs generalizing r with
  | nil =>
    have hzero : ofReg r + dividend r [] = 0 := by
      rw [dividend, ofBits, List.length_nil]
      linear_combination ofReg r * h2
    rw [List.foldl_nil, hzero]
    exact dvd_zero _
  | cons b bs ih =>
    have hstep : generator poly ∣
        X ^ bs.length * (if r.msb ^^ b then generator poly else 0) := by
      apply Dvd.dvd.mul_left
      split
      · exact dvd_refl _
      · exact dvd_zero _
    have hsum : ofReg ((b :: bs).foldl (step poly) r) + dividend r (b :: bs) =
        ofReg (bs.foldl (step poly) (step poly r b)) + dividend (step poly r b) bs +
          X ^ bs.length * (if r.msb ^^ b then generator poly else 0) := by
      rw [List.foldl_cons, dividend, dividend, ofBits, List.length_cons, ofReg_step]
      generalize (if r.msb ^^ b then generator poly else 0) = g
      split
      · linear_combination -X ^ bs.length * g * h2
      · linear_combination -X ^ bs.length * g * h2
    rw [hsum]
    exact dvd_add (ih _) hstep

/-- Two registers end up equal exactly if the generator divides the sum of what they divide. -/
theorem foldl_eq_iff (poly r s : BitVec n) (as bs : List Bool) :
    as.foldl (step poly) r = bs.foldl (step poly) s ↔
      generator poly ∣ dividend r as + dividend s bs := by
  have hdeg := degree_ofReg poly
  have hsum : generator poly ∣ ofReg (as.foldl (step poly) r ^^^ bs.foldl (step poly) s) +
      (dividend r as + dividend s bs) := by
    rw [ofReg_xor, add_add_add_comm]
    exact dvd_add (generator_dvd_foldl poly r as) (generator_dvd_foldl poly s bs)
  rw [← BitVec.xor_eq_zero_iff]
  constructor
  · intro h
    have hzero : ofReg 0#n = 0 := by
      ext i
      rw [coeff_ofReg]
      simp
    rwa [h, hzero, zero_add] at hsum
  · intro h
    have hreg : generator poly ∣ ofReg (as.foldl (step poly) r ^^^ bs.foldl (step poly) s) :=
      (dvd_add_left h).1 hsum
    have hlt : (ofReg (as.foldl (step poly) r ^^^ bs.foldl (step poly) s)).degree <
        (generator poly).degree := by
      have htop : (generator poly).degree = n := by
        rw [generator, degree_add_eq_left_of_degree_lt (by rwa [degree_X_pow]), degree_X_pow]
      rw [htop]
      exact degree_ofReg _
    apply ofReg_eq_zero
    by_contra hne
    exact (monic_X_pow_add hdeg).not_dvd_of_degree_lt hne hlt hreg

end Lfsr
