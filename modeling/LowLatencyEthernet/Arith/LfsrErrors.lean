import Mathlib.Dynamics.PeriodicPts.Lemmas
import LowLatencyEthernet.Arith.Lfsr

namespace Lfsr
set_option autoImplicit true

open Function

/-- A step that takes no bit. -/
def shift (poly r : BitVec n) : BitVec n := step poly r false

theorem shift_xor (poly r s : BitVec n) : shift poly (r ^^^ s) = shift poly r ^^^ shift poly s :=
  step_xor poly r s false false

theorem step_zero_true (poly : BitVec n) : step poly 0#n true = poly := by
  simp [step]

theorem step_true (poly r : BitVec n) : step poly r true = shift poly r ^^^ poly := by
  have hx := step_xor poly r 0#n false true
  rwa [step_zero_true, Bool.false_xor, BitVec.xor_zero] at hx

theorem foldl_xor {as bs : List Bool} (hlen : as.length = bs.length) (poly r s : BitVec n) :
    as.foldl (step poly) r ^^^ bs.foldl (step poly) s =
      (List.zipWith (· ^^ ·) as bs).foldl (step poly) (r ^^^ s) := by
  induction as generalizing bs r s with
  | nil =>
    cases bs with
    | nil => rfl
    | cons b bs => cases hlen
  | cons a as ih =>
    cases bs with
    | nil => cases hlen
    | cons b bs =>
      rw [List.foldl_cons, List.foldl_cons, List.zipWith_cons_cons, List.foldl_cons, step_xor]
      exact ih (Nat.succ.inj hlen) _ _

theorem foldl_zeros (poly r : BitVec n) (k : Nat) :
    (List.replicate k false).foldl (step poly) r = (shift poly)^[k] r := by
  induction k generalizing r with
  | zero => rfl
  | succ k ih =>
    rw [List.replicate_succ, List.foldl_cons, ih, iterate_succ_apply]
    rfl

theorem shift_eq_zero {poly r : BitVec n} (hp : poly.getLsbD 0 = true) (h : shift poly r = 0) :
    r = 0 := by
  have hn : 0 < n := Nat.pos_of_ne_zero fun hn => by
    subst hn
    rw [BitVec.getLsbD_of_ge poly 0 (Nat.le_refl 0)] at hp
    cases hp
  have hone : [false].length ≤ n := hn
  have hbits := (foldl_step_eq_zero hp hone).1 h
  apply BitVec.eq_of_getMsbD_eq
  intro i hi
  rw [hbits i hi]
  cases i <;> simp

theorem shift_zero (poly : BitVec n) : shift poly 0 = 0 := by
  have hx := shift_xor poly 0 0
  rw [BitVec.xor_self, BitVec.xor_self] at hx
  exact hx

theorem iterate_eq_zero {poly r : BitVec n} (hp : poly.getLsbD 0 = true)
    (h : (shift poly)^[k] r = 0) : r = 0 := by
  induction k generalizing r with
  | zero => exact h
  | succ k ih => exact shift_eq_zero hp (ih h)

theorem take_zeros {e : List Bool} (h : ∀ k < i, e[k]? ≠ some true) (hi : i ≤ e.length) :
    e.take i = List.replicate i false := by
  rw [List.eq_replicate_iff]
  refine ⟨List.length_take_of_le hi, fun b hb => ?_⟩
  obtain ⟨k, hk⟩ := List.mem_iff_getElem?.1 hb
  have hlt : k < i := by
    have hlen := (List.getElem?_eq_some_iff.1 hk).1
    rw [List.length_take] at hlen
    omega
  rw [List.getElem?_take_of_lt hlt] at hk
  cases b with
  | false => rfl
  | true => exact absurd hk (h k hlt)

theorem drop_zeros {e : List Bool} (h : ∀ k, i ≤ k → e[k]? ≠ some true) :
    e.drop i = List.replicate (e.length - i) false := by
  rw [List.eq_replicate_iff]
  refine ⟨List.length_drop, fun b hb => ?_⟩
  obtain ⟨k, hk⟩ := List.mem_iff_getElem?.1 hb
  rw [List.getElem?_drop] at hk
  cases b with
  | false => rfl
  | true => exact absurd hk (h (i + k) (Nat.le_add_right i k))

section

variable {poly : BitVec n} (hp : poly.getLsbD 0 = true) {e : List Bool}

include hp

/-- Ones that lie within as many places as the register has are not divided without a rest. -/
theorem foldl_burst {k : Nat} (h : ∀ k, e[k]? = some true → i ≤ k ∧ k < i + n)
    (hk : e[k]? = some true) :
    e.foldl (step poly) 0 ≠ 0 := by
  intro hz
  obtain ⟨hik, hkn⟩ := h k hk
  have hke := (List.getElem?_eq_some_iff.1 hk).1
  have hsplit : e = e.take i ++ ((e.drop i).take n ++ e.drop (i + n)) := by
    rw [← List.drop_drop, List.take_append_drop, List.take_append_drop]
  have hfront : e.take i = List.replicate i false :=
    take_zeros (fun j hj ht => Nat.not_lt.2 (h j ht).1 hj) (by omega)
  have hback : e.drop (i + n) = List.replicate (e.length - (i + n)) false :=
    drop_zeros fun j hj ht => Nat.not_le.2 (h j ht).2 hj
  rw [hsplit, List.foldl_append, List.foldl_append, hfront, hback, foldl_zeros, foldl_zeros,
    iterate_fixed (shift_zero poly)] at hz
  have hrest := iterate_eq_zero hp hz
  have hlen : ((e.drop i).take n).length ≤ n := List.length_take_le n _
  have hbit := (foldl_step_eq_zero hp hlen).1 hrest (k - i) (by omega)
  have hone : ((e.drop i).take n)[k - i]? = some true := by
    rw [List.getElem?_take_of_lt (by omega), List.getElem?_drop, Nat.add_sub_of_le hik, hk]
  rw [List.getD_eq_getElem?_getD, hone] at hbit
  simp at hbit

theorem foldl_pair (h : ∀ k : Nat, e[k]? = some true ↔ k = i ∨ k = j) (hij : i < j)
    (hper : ¬ IsPeriodicPt (shift poly) (j - i) poly) : e.foldl (step poly) 0 ≠ 0 := by
  intro hz
  have hi := (h i).2 (.inl rfl)
  have hj := (h j).2 (.inr rfl)
  have hie := (List.getElem?_eq_some_iff.1 hi).1
  have hje := (List.getElem?_eq_some_iff.1 hj).1
  have hfirst : e.drop i = true :: e.drop (i + 1) := by
    rw [List.drop_eq_getElem_cons hie, (List.getElem?_eq_some_iff.1 hi).2]
  have hsecond : e.drop j = true :: e.drop (j + 1) := by
    rw [List.drop_eq_getElem_cons hje, (List.getElem?_eq_some_iff.1 hj).2]
  have hmid : e.drop (i + 1) = (e.drop (i + 1)).take (j - (i + 1)) ++ e.drop j := by
    have hdrop : e.drop j = (e.drop (i + 1)).drop (j - (i + 1)) := by
      rw [List.drop_drop, Nat.add_sub_of_le hij]
    rw [hdrop, List.take_append_drop]
  have hfront : e.take i = List.replicate i false := by
    apply take_zeros _ (Nat.le_of_lt hie)
    intro k hk ht
    have := (h k).1 ht
    omega
  have hinner : (e.drop (i + 1)).take (j - (i + 1)) = List.replicate (j - (i + 1)) false := by
    apply take_zeros
    · intro k hk ht
      rw [List.getElem?_drop] at ht
      have := (h _).1 ht
      omega
    · rw [List.length_drop]
      omega
  have hback : e.drop (j + 1) = List.replicate (e.length - (j + 1)) false := by
    apply drop_zeros
    intro k hk ht
    have := (h k).1 ht
    omega
  have hone : step poly 0 true = poly := step_zero_true poly
  rw [← List.take_append_drop i e, List.foldl_append, hfront, foldl_zeros,
    iterate_fixed (shift_zero poly), hfirst, List.foldl_cons, hone, hmid, List.foldl_append, hinner,
    foldl_zeros, hsecond, List.foldl_cons, hback, foldl_zeros] at hz
  have hrest := iterate_eq_zero hp hz
  have hdist : (j - (i + 1)).succ = j - i := by omega
  rw [step_true, ← iterate_succ_apply' (shift poly), hdist] at hrest
  exact hper (BitVec.xor_eq_zero_iff.1 hrest)

end

/-- The strings differ in places that lie within `n` of them, or in two that are fewer than `span`
places apart. -/
inductive Wrong (n span : Nat) (as bs : List Bool) : Prop where
  | burst (i : Nat) (ne : as ≠ bs) (near : ∀ k, as[k]? ≠ bs[k]? → i ≤ k ∧ k < i + n)
  | pair (i j : Nat) (lt : i < j) (near : j < i + span)
      (only : ∀ k, as[k]? ≠ bs[k]? ↔ k = i ∨ k = j)

theorem getElem?_xor {as bs : List Bool} (hlen : as.length = bs.length) (k : Nat) :
    (List.zipWith (· ^^ ·) as bs)[k]? = some true ↔ as[k]? ≠ bs[k]? := by
  rw [List.getElem?_zipWith]
  rcases Nat.lt_or_ge k as.length with hk | hk
  · have hkb : k < bs.length := hlen ▸ hk
    rw [List.getElem?_eq_getElem hk, List.getElem?_eq_getElem hkb]
    cases as[k] <;> cases bs[k] <;> simp
  · rw [List.getElem?_eq_none hk, List.getElem?_eq_none (hlen ▸ hk)]
    simp

theorem Wrong.foldl_ne {poly : BitVec n} (hp : poly.getLsbD 0 = true) {as bs : List Bool}
    (h : Wrong n (minimalPeriod (shift poly) poly) as bs) (hlen : as.length = bs.length)
    (r : BitVec n) : as.foldl (step poly) r ≠ bs.foldl (step poly) r := by
  rw [Ne, ← BitVec.xor_eq_zero_iff, foldl_xor hlen, BitVec.xor_self]
  cases h with
  | burst i ne near =>
    obtain ⟨k, hk⟩ : ∃ k, as[k]? ≠ bs[k]? := by
      by_contra hall
      exact ne (List.ext_getElem? fun k => not_not.1 fun hk => hall ⟨k, hk⟩)
    exact foldl_burst hp (fun k ht => near k ((getElem?_xor hlen k).1 ht))
      ((getElem?_xor hlen k).2 hk)
  | pair i j lt near only =>
    apply foldl_pair hp (fun k => (getElem?_xor hlen k).trans (only k)) lt
    exact not_isPeriodicPt_of_pos_of_lt_minimalPeriod (by omega) (by omega)

end Lfsr
