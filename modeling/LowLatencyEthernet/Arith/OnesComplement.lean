import Mathlib.Algebra.Ring.Nat
import Mathlib.Data.List.Basic
import Mathlib.Data.Nat.ModEq

namespace OnesComplement
set_option autoImplicit true

/-! Sums of words with end-around carry, and their deferral: the carry of an addition may wait for
the next one. -/

/-- Addition with end-around carry. -/
def add (a b : BitVec n) : BitVec n :=
  a + b + (BitVec.ofBool (BitVec.carry n a b false)).setWidth n

def sum (ws : List (BitVec n)) : BitVec n := ws.foldl add 0

/-- A running sum whose last carry is still out. -/
@[ext] structure Acc (n : Nat) where
  low : BitVec n
  carry : Bool
deriving DecidableEq, Repr

namespace Acc

def zero : Acc n := ⟨0, false⟩

def add (x : Acc n) (w : BitVec n) : Acc n :=
  ⟨x.low + w + (BitVec.ofBool x.carry).setWidth n, BitVec.carry n x.low w x.carry⟩

def total (x : Acc n) : BitVec n := x.low + (BitVec.ofBool x.carry).setWidth n

/-- The waiting carry still fits. -/
def Fits (x : Acc n) : Prop := x.low.toNat + x.carry.toNat < 2 ^ n

theorem carry_eq (a b : BitVec n) (c : Bool) :
    BitVec.carry n a b c = decide (2 ^ n ≤ a.toNat + b.toNat + c.toNat) := by
  simp only [BitVec.carry, Nat.mod_eq_of_lt a.isLt, Nat.mod_eq_of_lt b.isLt, ge_iff_le]

theorem zero_add (w : BitVec n) : zero.add w = ⟨w, false⟩ := by
  have hlow : (0 : BitVec n) + w + (BitVec.ofBool false).setWidth n = w := by simp
  have hcarry : BitVec.carry n 0 w false = false := by
    rw [carry_eq, decide_eq_false]
    simpa using w.isLt
  rw [add, zero, hlow, hcarry]

theorem toNat_add_ofBool (a : BitVec n) (c : Bool) :
    (a + (BitVec.ofBool c).setWidth n).toNat = (a.toNat + c.toNat) % 2 ^ n := by
  cases c <;> simp

theorem toNat_add (x : Acc n) (w : BitVec n) :
    (x.add w).low.toNat + (x.add w).carry.toNat * 2 ^ n =
      x.low.toNat + x.carry.toNat + w.toNat := by
  have hlow : (x.add w).low.toNat = (x.low.toNat + x.carry.toNat + w.toNat) % 2 ^ n := by
    rw [add, toNat_add_ofBool, BitVec.toNat_add, Nat.mod_add_mod, Nat.add_right_comm]
  have hcarry : (x.add w).carry =
      decide (2 ^ n ≤ x.low.toNat + x.carry.toNat + w.toNat) := by
    simp only [add, carry_eq, Nat.add_right_comm]
  have hl := x.low.isLt
  have hw := w.isLt
  have hc := x.carry.toNat_le
  rw [hlow, hcarry]
  by_cases hle : 2 ^ n ≤ x.low.toNat + x.carry.toNat + w.toNat
  · rw [Nat.mod_eq_sub_mod hle, Nat.mod_eq_of_lt (by omega), decide_eq_true hle]
    simp only [Bool.toNat_true]
    omega
  · rw [Nat.mod_eq_of_lt (by omega), decide_eq_false hle]
    simp

theorem toNat_total {x : Acc n} (h : x.Fits) : x.total.toNat = x.low.toNat + x.carry.toNat := by
  rw [total, toNat_add_ofBool, Nat.mod_eq_of_lt h]

theorem fits_zero : (zero : Acc n).Fits := by
  rw [Fits, zero]
  exact Nat.two_pow_pos n

theorem Fits.add {x : Acc n} (h : x.Fits) (w : BitVec n) : (x.add w).Fits := by
  have hadd := toNat_add x w
  have hw := w.isLt
  have hlt := (x.add w).low.isLt
  rw [Fits] at h ⊢
  cases hc : (x.add w).carry with
  | false => simpa using hlt
  | true =>
    rw [hc] at hadd
    simp only [Bool.toNat_true] at hadd ⊢
    omega

theorem Fits.foldl {x : Acc n} (h : x.Fits) (ws : List (BitVec n)) :
    (ws.foldl Acc.add x).Fits := by
  induction ws generalizing x with
  | nil => exact h
  | cons w ws ih => exact ih (h.add w)

theorem add_eq_low (a b : BitVec n) :
    OnesComplement.add a b = ((⟨a, false⟩ : Acc n).add b).total := by
  simp [OnesComplement.add, total, add]

theorem Fits.total_add {x : Acc n} (h : x.Fits) (w : BitVec n) :
    (x.add w).total = OnesComplement.add x.total w := by
  have hy : (⟨x.total, false⟩ : Acc n).Fits := by simp [Fits, x.total.isLt]
  have h₁ := toNat_add x w
  have h₂ := toNat_add ⟨x.total, false⟩ w
  have hlow₁ := (x.add w).low.isLt
  have hlow₂ := ((⟨x.total, false⟩ : Acc n).add w).low.isLt
  apply BitVec.eq_of_toNat_eq
  rw [add_eq_low, toNat_total (h.add w), toNat_total (hy.add w)]
  rw [toNat_total h] at h₂
  simp only [Bool.toNat_false, Nat.add_zero] at h₂
  cases hc₁ : (x.add w).carry <;> cases hc₂ : ((⟨x.total, false⟩ : Acc n).add w).carry <;>
    simp only [hc₁, hc₂, Bool.toNat_true, Bool.toNat_false] at h₁ h₂ ⊢ <;> omega

theorem total_foldl (ws : List (BitVec n)) : (ws.foldl add zero).total = sum ws := by
  suffices h : ∀ x : Acc n, x.Fits → (ws.foldl add x).total = ws.foldl OnesComplement.add x.total by
    have h0 := h zero fits_zero
    simpa [zero, total, sum] using h0
  induction ws with
  | nil => exact fun _ _ => rfl
  | cons w ws ih =>
    intro x hx
    rw [List.foldl_cons, List.foldl_cons, ih _ (hx.add w), hx.total_add]

end Acc

theorem toNat_add_carry (a b : BitVec n) :
    (add a b).toNat + (BitVec.carry n a b false).toNat * (2 ^ n - 1) = a.toNat + b.toNat := by
  have hfits : (⟨a, false⟩ : Acc n).Fits := by simp [Acc.Fits, a.isLt]
  have hadd := Acc.toNat_add ⟨a, false⟩ b
  have hcarry : ((⟨a, false⟩ : Acc n).add b).carry = BitVec.carry n a b false := rfl
  have hpos := Nat.two_pow_pos n
  rw [Acc.add_eq_low, Acc.toNat_total (hfits.add b), ← hcarry]
  simp only [Bool.toNat_false, Nat.add_zero] at hadd
  cases hc : ((⟨a, false⟩ : Acc n).add b).carry <;>
    simp only [hc, Bool.toNat_false, Bool.toNat_true] at hadd ⊢ <;> omega

theorem toNat_add_modEq (a b : BitVec n) :
    (add a b).toNat ≡ a.toNat + b.toNat [MOD 2 ^ n - 1] := by
  rw [← toNat_add_carry]
  exact (Nat.add_mul_mod_self_right _ _ _).symm

theorem toNat_foldl_modEq (a : BitVec n) (ws : List (BitVec n)) :
    (ws.foldl add a).toNat ≡ a.toNat + (ws.map BitVec.toNat).sum [MOD 2 ^ n - 1] := by
  induction ws generalizing a with
  | nil => exact Nat.ModEq.refl _
  | cons w ws ih =>
    rw [List.map_cons, List.sum_cons, ← Nat.add_assoc]
    exact (ih (add a w)).trans ((toNat_add_modEq a w).add_right _)

theorem toNat_add_eq_zero {a b : BitVec n} (h : (add a b).toNat = 0) :
    a.toNat + b.toNat = 0 := by
  have hadd := toNat_add_carry a b
  have hcarry := Acc.carry_eq a b false
  have hpos := Nat.two_pow_pos n
  rw [h] at hadd
  cases hc : BitVec.carry n a b false with
  | false => simpa [hc] using hadd.symm
  | true =>
    have hle := of_decide_eq_true (hcarry.symm.trans hc)
    simp only [hc, Bool.toNat_true, Bool.toNat_false] at hadd hle
    omega

theorem toNat_foldl_eq_zero {a : BitVec n} {ws : List (BitVec n)}
    (h : (ws.foldl add a).toNat = 0) : a.toNat + (ws.map BitVec.toNat).sum = 0 := by
  induction ws generalizing a with
  | nil => exact h
  | cons w ws ih =>
    have hrest := ih h
    have hfirst := toNat_add_eq_zero (Nat.eq_zero_of_add_eq_zero_right hrest)
    have htail := Nat.eq_zero_of_add_eq_zero_left hrest
    rw [List.map_cons, List.sum_cons, ← Nat.add_assoc, hfirst, htail]

theorem toNat_foldl_le (a : BitVec n) (ws : List (BitVec n)) :
    (ws.foldl add a).toNat ≤ a.toNat + (ws.map BitVec.toNat).sum := by
  induction ws generalizing a with
  | nil => exact Nat.le_refl _
  | cons w ws ih =>
    have hadd : (add a w).toNat ≤ a.toNat + w.toNat := Nat.le.intro (toNat_add_carry a w)
    rw [List.map_cons, List.sum_cons, ← Nat.add_assoc]
    exact (ih (add a w)).trans (Nat.add_le_add_right hadd _)

/-- Words check against each other when they add up to a multiple of `2 ^ n - 1` other than zero. -/
theorem sum_eq_allOnes_iff (hn : 0 < n) (ws : List (BitVec n)) :
    sum ws = BitVec.allOnes n ↔
      2 ^ n - 1 ∣ (ws.map BitVec.toNat).sum ∧ (ws.map BitVec.toNat).sum ≠ 0 := by
  have hmod : (sum ws).toNat ≡ (ws.map BitVec.toNat).sum [MOD 2 ^ n - 1] := by
    simpa [sum] using toNat_foldl_modEq 0#n ws
  have hle : (sum ws).toNat ≤ (ws.map BitVec.toNat).sum := by
    simpa [sum] using toNat_foldl_le 0#n ws
  have hzero (h : (sum ws).toNat = 0) : (ws.map BitVec.toNat).sum = 0 := by
    simpa using toNat_foldl_eq_zero (a := 0#n) h
  have htwo : 2 ≤ 2 ^ n := Nat.pow_le_pow_right Nat.two_pos hn
  rw [← BitVec.toNat_inj, BitVec.toNat_allOnes]
  constructor
  · intro h
    rw [h] at hmod hle
    exact ⟨(hmod.dvd_iff (Nat.dvd_refl _)).1 (Nat.dvd_refl _), by omega⟩
  · rintro ⟨hdvd, hne⟩
    obtain ⟨k, hk⟩ := (hmod.dvd_iff (Nat.dvd_refl _)).2 hdvd
    have hlt := (sum ws).isLt
    -- the multiple is neither the zeroth nor, for want of room, the second
    have hk0 : k ≠ 0 := by
      rintro rfl
      exact hne (hzero hk)
    have hk2 : k < 2 := by
      by_contra hge
      have hmul := Nat.mul_le_mul_left (2 ^ n - 1) (Nat.le_of_not_lt hge)
      omega
    obtain rfl : k = 1 := by omega
    rw [hk, Nat.mul_one]

/-- The first `k` words of a number, the low one first. -/
def words (n k : Nat) (v : BitVec m) : List (BitVec n) :=
  (List.range k).map fun j => v.extractLsb' (n * j) n

theorem words_succ (n k : Nat) (v : BitVec m) :
    words n (k + 1) v = words n k v ++ [v.extractLsb' (n * k) n] := by
  rw [words, List.range_succ, List.map_append]
  rfl

theorem toNat_mod_words (n k : Nat) (v : BitVec m) :
    v.toNat % 2 ^ (n * (k + 1)) =
      v.toNat % 2 ^ (n * k) + 2 ^ (n * k) * (v.extractLsb' (n * k) n).toNat := by
  rw [Nat.mul_succ, Nat.pow_add, Nat.mod_mul, BitVec.extractLsb'_toNat, Nat.shiftRight_eq_div_pow]

theorem two_pow_modEq_one (n k : Nat) : 2 ^ (n * k) ≡ 1 [MOD 2 ^ n - 1] := by
  have h : 2 ^ n ≡ 1 [MOD 2 ^ n - 1] :=
    ((Nat.modEq_iff_dvd' Nat.one_le_two_pow).2 (Nat.dvd_refl _)).symm
  simpa [Nat.pow_mul] using h.pow k

theorem sum_words_modEq (n k : Nat) (v : BitVec m) :
    ((words n k v).map BitVec.toNat).sum ≡ v.toNat % 2 ^ (n * k) [MOD 2 ^ n - 1] := by
  induction k with
  | zero => simp [words, Nat.mod_one, Nat.ModEq.refl]
  | succ k ih =>
    rw [words_succ, List.map_append, List.sum_append, toNat_mod_words]
    apply ih.add
    simpa using ((two_pow_modEq_one n k).mul_right (v.extractLsb' (n * k) n).toNat).symm

theorem sum_words_eq_zero (n k : Nat) (v : BitVec m)
    (h : ((words n k v).map BitVec.toNat).sum = 0) : v.toNat % 2 ^ (n * k) = 0 := by
  induction k with
  | zero => simp [Nat.mod_one]
  | succ k ih =>
    rw [words_succ, List.map_append, List.sum_append] at h
    have hlast : (v.extractLsb' (n * k) n).toNat = 0 := by
      simpa using Nat.eq_zero_of_add_eq_zero_left h
    rw [toNat_mod_words, ih (Nat.eq_zero_of_add_eq_zero_right h), hlast, Nat.mul_zero]

end OnesComplement
