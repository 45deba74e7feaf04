import Mathlib.Data.FinEnum
import Mathlib.Dynamics.PeriodicPts.Lemmas
import LowLatencyEthernet.Arith.Lfsr

namespace Orbit
set_option autoImplicit true

open Function

theorem minimalPeriod_eq {f : α → α} {x : α} (hper : IsPeriodicPt f n x)
    (hprime : ∀ q, q.Prime → q ∣ n → ¬ IsPeriodicPt f (n / q) x) : minimalPeriod f x = n := by
  obtain ⟨k, hk⟩ := hper.minimalPeriod_dvd
  by_contra hne
  have hk1 : k ≠ 1 := by
    rintro rfl
    exact hne (by rw [hk, Nat.mul_one])
  obtain ⟨q, hq, j, rfl⟩ := Nat.exists_prime_and_dvd hk1
  refine hprime q hq ⟨minimalPeriod f x * j, ?_⟩ ?_
  · rw [hk]
    exact Nat.mul_left_comm _ _ _
  · have hdiv : n / q = minimalPeriod f x * j := by
      rw [hk, Nat.mul_left_comm]
      exact Nat.mul_div_cancel_left _ hq.pos
    rw [hdiv]
    exact (isPeriodicPt_minimalPeriod f x).mul_const j

/-- A point whose orbit has as many points as `S` reaches each of them once in a period. -/
theorem existsUnique_iterate {f : α → α} {x : α} {S : Finset α}
    (hS : ∀ y ∈ S, f y ∈ S) (hx : x ∈ S) (hcard : minimalPeriod f x = S.card) (hy : y ∈ S) :
    ∃! k, k < S.card ∧ f^[k] x = y := by
  have hmem (k : ℕ) : f^[k] x ∈ S := by
    induction k with
    | zero => exact hx
    | succ k ih =>
      rw [iterate_succ_apply']
      exact hS _ ih
  have hinj : Set.InjOn (f^[·] x) (Finset.range S.card) := by
    intro i hi j hj he
    rw [Finset.coe_range, ← hcard] at hi hj
    exact iterate_injOn_Iio_minimalPeriod hi hj he
  have hsurj := Finset.surjOn_of_injOn_of_card_le (t := S) _ (fun k _ => hmem k) hinj
    (by rw [Finset.card_range])
  obtain ⟨k, hk, hky⟩ := hsurj hy
  refine ⟨k, ⟨List.mem_range.1 hk, hky⟩, fun j hj => ?_⟩
  exact hinj (Finset.mem_coe.2 (Finset.mem_range.2 hj.1)) hk (hj.2.trans hky.symm)

/-! A map that commutes with exclusive or, and its iterates as polynomials over the bits. -/

section

variable {f : BitVec n → BitVec n}

/-- The polynomial with these coefficients, the constant one first. -/
def act (f : BitVec n → BitVec n) : List Bool → BitVec n → BitVec n
  | [], _ => 0
  | b :: q, y => bif b then y ^^^ act f q (f y) else act f q (f y)

theorem act_xor (hf : ∀ x y, f (x ^^^ y) = f x ^^^ f y) (q : List Bool) (x y : BitVec n) :
    act f q (x ^^^ y) = act f q x ^^^ act f q y := by
  induction q generalizing x y with
  | nil => exact BitVec.xor_zero.symm
  | cons b q ih =>
    cases b with
    | false =>
      simp only [act, cond_false, hf]
      exact ih _ _
    | true =>
      simp only [act, cond_true, hf, ih]
      exact Lfsr.xor_xor_xor_comm _ _ _ _

/-- Squares of polynomials, checked on the powers of two, double the number of steps. -/
theorem act_squares (hf : ∀ x y, f (x ^^^ y) = f x ^^^ f y) {qs : Nat → List Bool}
    (h0 : ∀ i < n, act f (qs 0) (BitVec.twoPow n i) = f (BitVec.twoPow n i))
    (hsq : ∀ k < d, ∀ i < n, act f (qs k) (act f (qs k) (BitVec.twoPow n i)) =
      act f (qs (k + 1)) (BitVec.twoPow n i)) (hk : k ≤ d) (x : BitVec n) :
    act f (qs k) x = f^[2 ^ k] x := by
  induction k generalizing x with
  | zero => exact Lfsr.eq_of_twoPow (act_xor hf _) hf h0 x
  | succ k ih =>
    have hsquare := Lfsr.eq_of_twoPow (f := fun y => act f (qs k) (act f (qs k) y))
      (g := act f (qs (k + 1)))
      (fun x y => by rw [act_xor hf, act_xor hf]) (act_xor hf _) (hsq k hk) x
    rw [← hsquare, ih (Nat.le_of_succ_le hk), ih (Nat.le_of_succ_le hk), pow_succ, Nat.mul_two,
      iterate_add_apply]

theorem act_comm (hf : ∀ x y, f (x ^^^ y) = f x ^^^ f y) (q : List Bool) (x : BitVec n) :
    act f q (f x) = f (act f q x) := by
  induction q generalizing x with
  | nil =>
    have hzero := hf 0 0
    rw [BitVec.xor_self] at hzero
    exact (hzero.trans BitVec.xor_self).symm
  | cons b q ih =>
    cases b with
    | false => exact ih (f x)
    | true =>
      simp only [act, cond_true, hf]
      rw [ih (f x)]

theorem act_squares_cyclic (hf : ∀ x y, f (x ^^^ y) = f x ^^^ f y) {x₀ : BitVec n}
    (hcyc : ∀ i < n, f^[i] x₀ = BitVec.twoPow n i) {qs : Nat → List Bool}
    (h0 : act f (qs 0) x₀ = f x₀)
    (hsq : ∀ k < d, act f (qs k) (act f (qs k) x₀) = act f (qs (k + 1)) x₀) (hk : k ≤ d)
    (x : BitVec n) : act f (qs k) x = f^[2 ^ k] x := by
  have hact (q : List Bool) (i : Nat) (y : BitVec n) : act f q (f^[i] y) = f^[i] (act f q y) :=
    (Commute.iterate_right (act_comm hf q) i) y
  apply act_squares hf _ _ hk
  · intro i hi
    rw [← hcyc i hi, hact, h0, ← iterate_succ_apply, iterate_succ_apply']
  · intro k hk i hi
    rw [← hcyc i hi, hact, hact, hact, hsq k hk]

theorem foldr_act {ks : List Nat} {qs : Nat → List Bool}
    (hqs : ∀ k ∈ ks, ∀ x, act f (qs k) x = f^[2 ^ k] x)
    (x : BitVec n) :
    ks.foldr (fun k y => act f (qs k) y) x = f^[(ks.map fun k => 2 ^ k).sum] x := by
  induction ks with
  | nil => rfl
  | cons k ks ih =>
    rw [List.foldr_cons, hqs k List.mem_cons_self, ih fun j hj => hqs j (List.mem_cons_of_mem _ hj),
      List.map_cons, List.sum_cons, iterate_add_apply]

theorem not_isPeriodicPt {ks : List Nat} {qs : Nat → List Bool}
    (hqs : ∀ k ∈ ks, ∀ x, act f (qs k) x = f^[2 ^ k] x) {x : BitVec n}
    (hne : ks.foldr (fun k y => act f (qs k) y) x ≠ x)
    (hsum : (ks.map fun k => 2 ^ k).sum = m) : ¬ IsPeriodicPt f m x := by
  intro hper
  rw [foldr_act hqs, hsum] at hne
  exact hne hper

theorem foldr_act_xor (hf : ∀ x y, f (x ^^^ y) = f x ^^^ f y) (qs : Nat → List Bool)
    (ks : List Nat) (x y : BitVec n) :
    ks.foldr (fun k y => act f (qs k) y) (x ^^^ y) =
      ks.foldr (fun k y => act f (qs k) y) x ^^^ ks.foldr (fun k y => act f (qs k) y) y := by
  induction ks with
  | nil => rfl
  | cons k ks ih => rw [List.foldr_cons, List.foldr_cons, List.foldr_cons, ih, act_xor hf]

end

end Orbit
