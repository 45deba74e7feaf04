import Mathlib.Algebra.Ring.Nat
import Mathlib.Data.List.Basic

namespace Lfsr
set_option autoImplicit true

/-! Linear feedback shift registers that divide by a polynomial, the most significant bit first. -/

/-- One bit into the register. `poly` leaves out the leading coefficient. -/
def step (poly r : BitVec n) (b : Bool) : BitVec n := r <<< 1 ^^^ if r.msb ^^ b then poly else 0

/-- The bits of a word, the most significant one first. -/
def bits (d : BitVec m) : List Bool := (List.range m).map d.getMsbD

def absorb (poly r : BitVec n) (d : BitVec m) : BitVec n := (bits d).foldl (step poly) r

theorem bits_append (a : BitVec m) (b : BitVec k) : bits (a ++ b) = bits a ++ bits b := by
  rw [bits, bits, bits, List.range_add, List.map_append, List.map_map]
  congr 1
  · apply List.map_congr_left
    intro i hi
    have hlt : ¬ m ≤ i := Nat.not_le.2 (List.mem_range.1 hi)
    rw [BitVec.getMsbD_append, if_neg hlt]
  · apply List.map_congr_left
    intro i _
    rw [Function.comp_apply, BitVec.getMsbD_append, if_pos (Nat.le_add_right m i),
      Nat.add_sub_cancel_left]

theorem absorb_append (poly r : BitVec n) (a : BitVec m) (b : BitVec k) :
    absorb poly r (a ++ b) = absorb poly (absorb poly r a) b := by
  rw [absorb, bits_append, List.foldl_append]
  rfl

theorem xor_xor_xor_comm (a b c d : BitVec n) : a ^^^ b ^^^ (c ^^^ d) = a ^^^ c ^^^ (b ^^^ d) := by
  ac_rfl

theorem bool_xor_comm (a b c d : Bool) : ((a ^^ b) ^^ (c ^^ d)) = ((a ^^ c) ^^ (b ^^ d)) := by
  cases a <;> cases b <;> cases c <;> cases d <;> rfl

theorem step_xor (poly r s : BitVec n) (b c : Bool) :
    step poly (r ^^^ s) (b ^^ c) = step poly r b ^^^ step poly s c := by
  have hbit : ((r ^^^ s).msb ^^ (b ^^ c)) = ((r.msb ^^ b) ^^ (s.msb ^^ c)) := by
    rw [BitVec.msb_xor]
    exact bool_xor_comm _ _ _ _
  have hpoly (x y : Bool) : (if x ^^ y then poly else 0) =
      (if x then poly else 0) ^^^ (if y then poly else 0) := by
    cases x <;> cases y <;> simp
  rw [step, hbit, hpoly, BitVec.shiftLeft_xor_distrib, xor_xor_xor_comm]
  rfl

theorem absorb_xor (poly r s : BitVec n) (d e : BitVec m) :
    absorb poly (r ^^^ s) (d ^^^ e) = absorb poly r d ^^^ absorb poly s e := by
  rw [absorb, absorb, absorb, bits, bits, bits]
  generalize List.range m = is
  induction is generalizing r s with
  | nil => rfl
  | cons i is ih =>
    rw [List.map_cons, List.map_cons, List.map_cons, List.foldl_cons, List.foldl_cons,
      List.foldl_cons, BitVec.getMsbD_xor, step_xor]
    exact ih _ _

theorem eq_of_twoPow {f g : BitVec n → BitVec m} (hf : ∀ x y, f (x ^^^ y) = f x ^^^ f y)
    (hg : ∀ x y, g (x ^^^ y) = g x ^^^ g y)
    (h : ∀ i < n, f (BitVec.twoPow n i) = g (BitVec.twoPow n i)) (x : BitVec n) : f x = g x := by
  suffices hall : ∀ k ≤ n, ∀ x : BitVec n, (∀ i, k ≤ i → x.getLsbD i = false) → f x = g x from
    hall n (Nat.le_refl n) x fun i hi => BitVec.getLsbD_of_ge x i hi
  intro k
  induction k with
  | zero =>
    intro _ x hx
    have h0 : x = 0 := by
      apply BitVec.eq_of_getLsbD_eq
      intro i _
      rw [hx i (Nat.zero_le i)]
      exact BitVec.getLsbD_zero.symm
    have hz {e : BitVec n → BitVec m} (he : ∀ x y, e (x ^^^ y) = e x ^^^ e y) : e 0 = 0 := by
      have h := he 0 0
      rw [BitVec.xor_self] at h
      exact h.trans BitVec.xor_self
    rw [h0, hz hf, hz hg]
  | succ k ih =>
    intro hk x hx
    cases hb : x.getLsbD k with
    | false =>
      apply ih (Nat.le_of_succ_le hk)
      intro i hi
      rcases Nat.eq_or_lt_of_le hi with rfl | hlt
      · exact hb
      · exact hx i hlt
    | true =>
      have hrest : f (x ^^^ BitVec.twoPow n k) = g (x ^^^ BitVec.twoPow n k) := by
        apply ih (Nat.le_of_succ_le hk)
        intro i hi
        rw [BitVec.getLsbD_xor, BitVec.getLsbD_twoPow]
        rcases Nat.eq_or_lt_of_le hi with rfl | hlt
        · simp [hb, Nat.lt_of_succ_le hk]
        · simp [hx i hlt, Nat.ne_of_lt hlt]
      have hx' : x = x ^^^ BitVec.twoPow n k ^^^ BitVec.twoPow n k := by
        rw [BitVec.xor_assoc, BitVec.xor_self]
        exact BitVec.xor_zero.symm
      rw [hx', hf, hg, hrest, h k (Nat.lt_of_succ_le hk)]

theorem getMsbD_step {poly r : BitVec n} (h : (r.msb ^^ b) = false) (i : Nat) :
    (step poly r b).getMsbD i = r.getMsbD (i + 1) := by
  rw [step, h, if_neg Bool.false_ne_true, BitVec.getMsbD_xor, BitVec.getMsbD_shiftLeft]
  simp

theorem getMsbD_step_last {poly r : BitVec n} (hp : poly.getLsbD 0 = true) (hn : 0 < n) :
    (step poly r b).getMsbD (n - 1) = (r.msb ^^ b) := by
  have hlt : n - 1 < n := Nat.sub_lt hn Nat.one_pos
  rw [step, BitVec.getMsbD_xor, BitVec.getMsbD_shiftLeft, Nat.sub_add_cancel hn,
    BitVec.getMsbD_of_ge r n (Nat.le_refl n), Bool.false_xor]
  cases r.msb ^^ b with
  | false => simp
  | true =>
    rw [if_pos rfl, BitVec.getMsbD_eq_getLsbD, Nat.sub_self, hp, decide_eq_true hlt]
    rfl

theorem foldl_step_eq_zero {poly r : BitVec n} (hp : poly.getLsbD 0 = true) {bs : List Bool}
    (hlen : bs.length ≤ n) :
    bs.foldl (step poly) r = 0 ↔ ∀ i < n, r.getMsbD i = bs.getD i false := by
  induction bs generalizing r with
  | nil =>
    rw [List.foldl_nil]
    constructor
    · rintro rfl i _
      simp
    · intro h
      apply BitVec.eq_of_getMsbD_eq
      intro i hi
      rw [h i hi]
      simp
  | cons b bs ih =>
    have hn : bs.length + 1 ≤ n := hlen
    have hpast {i : Nat} (hi : bs.length ≤ i) : bs.getD i false = false := by
      rw [List.getD_eq_getElem?_getD, List.getElem?_eq_none hi]
      rfl
    rw [List.foldl_cons, ih (Nat.le_of_succ_le hn)]
    constructor
    · intro h i hi
      have hb : (r.msb ^^ b) = false := by
        rw [← getMsbD_step_last hp (Nat.lt_of_lt_of_le (Nat.succ_pos _) hn),
          h (n - 1) (by omega), hpast (by omega)]
      cases i with
      | zero =>
        rw [← BitVec.msb_eq_getMsbD_zero]
        simpa using hb
      | succ i =>
        rw [← getMsbD_step hb, h i (Nat.lt_of_succ_lt hi)]
        rfl
    · intro h i hi
      have hb : (r.msb ^^ b) = false := by
        have h0 := h 0 (Nat.lt_of_lt_of_le (Nat.succ_pos _) hn)
        rw [← BitVec.msb_eq_getMsbD_zero] at h0
        simp [h0]
      rw [getMsbD_step hb]
      rcases Nat.lt_or_ge (i + 1) n with hi' | hi'
      · exact h (i + 1) hi'
      · rw [BitVec.getMsbD_of_ge r _ hi', hpast (by omega)]

/-- A word leaves the register at zero exactly if the register held that word in its top bits. -/
theorem absorb_eq_zero {poly r : BitVec (m + k)} (hp : poly.getLsbD 0 = true) {d : BitVec m} :
    absorb poly r d = 0 ↔ r = d ++ 0#k := by
  have hlen : (bits d).length = m := by simp [bits]
  have hget (i : Nat) : (bits d).getD i false = (d ++ 0#k).getMsbD i := by
    rw [BitVec.getMsbD_append]
    by_cases hi : m ≤ i
    · rw [if_pos hi, BitVec.getMsbD_zero, List.getD_eq_getElem?_getD,
        List.getElem?_eq_none (by omega)]
      rfl
    · rw [if_neg hi]
      simp [bits, Nat.not_le.1 hi]
  rw [absorb, foldl_step_eq_zero hp (by omega)]
  simp only [hget]
  constructor
  · intro h
    exact BitVec.eq_of_getMsbD_eq h
  · rintro rfl i _
    rfl

theorem absorb_inj {poly r : BitVec (m + k)} (hp : poly.getLsbD 0 = true) {d e : BitVec m}
    (h : absorb poly r d = absorb poly r e) : d = e := by
  have hzero : absorb poly 0#(m + k) (d ^^^ e) = 0 := by
    have hx := absorb_xor poly r r d e
    rw [BitVec.xor_self, h, BitVec.xor_self] at hx
    exact hx
  have happ : 0#(m + k) = (d ^^^ e) ++ 0#k := (absorb_eq_zero hp).1 hzero
  rw [← BitVec.zero_append_zero] at happ
  have hhigh := congrArg (·.extractLsb' k m) happ
  simp only [BitVec.extractLsb'_append_eq_left] at hhigh
  exact BitVec.xor_eq_zero_iff.1 hhigh.symm

end Lfsr
