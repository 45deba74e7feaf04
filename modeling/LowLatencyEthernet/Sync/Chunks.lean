import Mathlib.Algebra.Ring.Nat
import Mathlib.Data.List.Basic

namespace Sync
set_option autoImplicit true

/-- The pieces of a sequence that is cut after every `n` items: only the last may be shorter. -/
structure Chunked (n : Nat) (cs : List (List α)) : Prop where
  full : ∀ k c, cs[k]? = some c → k + 1 < cs.length → c.length = n
  le : ∀ c ∈ cs, c.length ≤ n

theorem chunked_of_last {f : List β} {last : β → Bool} {piece : β → List α}
    (hlast : ∀ k b, f[k]? = some b → (last b = true ↔ k + 1 = f.length))
    (hfull : ∀ b ∈ f, last b = false → (piece b).length = n)
    (hle : ∀ b ∈ f, last b = true → (piece b).length ≤ n) : Chunked n (f.map piece) where
  full k c hc hk := by
    rw [List.getElem?_map, Option.map_eq_some_iff] at hc
    obtain ⟨b, hb, rfl⟩ := hc
    rw [List.length_map] at hk
    apply hfull b (List.mem_of_getElem? hb)
    exact Bool.eq_false_iff.2 fun ht => Nat.ne_of_lt hk ((hlast k b hb).1 ht)
  le c hc := by
    obtain ⟨b, hb, rfl⟩ := List.mem_map.1 hc
    cases ht : last b with
    | false => exact Nat.le_of_eq (hfull b hb ht)
    | true => exact hle b hb ht

theorem Chunked.tail (h : Chunked n (c :: cs)) : Chunked n cs where
  full k d hd hk := h.full (k + 1) d hd (Nat.succ_lt_succ hk)
  le d hd := h.le d (List.mem_cons_of_mem c hd)

theorem Chunked.head_full (h : Chunked n (c :: cs)) (hne : cs ≠ []) : c.length = n := by
  have hpos := List.length_pos_of_ne_nil hne
  exact h.full 0 c rfl (Nat.succ_lt_succ hpos)

theorem Chunked.getElem?_flatten (h : Chunked n cs) (hc : cs[k]? = some p) (hj : j < n) :
    cs.flatten[n * k + j]? = p[j]? := by
  induction cs generalizing k with
  | nil => cases hc
  | cons d cs ih =>
    rw [List.flatten_cons]
    cases k with
    | zero =>
      have hd : d = p := Option.some.inj hc
      rw [Nat.mul_zero, Nat.zero_add, hd]
      by_cases hnil : cs = []
      · rw [hnil, List.flatten_nil, List.append_nil]
      · have hlen := h.head_full hnil
        rw [List.getElem?_append_left (by rw [← hd, hlen]; exact hj)]
    | succ k =>
      have hne : cs ≠ [] := by
        rintro rfl
        cases hc
      have hlen := h.head_full hne
      have hn : n * (k + 1) + j = d.length + (n * k + j) := by
        rw [hlen, Nat.mul_succ]
        omega
      rw [hn, List.getElem?_append_right (Nat.le_add_right _ _), Nat.add_sub_cancel_left]
      exact ih h.tail hc

theorem Chunked.length_flatten_le (h : Chunked n cs) : cs.flatten.length ≤ n * cs.length := by
  induction cs with
  | nil => exact Nat.zero_le _
  | cons c cs ih =>
    have hc := h.le c List.mem_cons_self
    have hcs := ih h.tail
    rw [List.flatten_cons, List.length_append, List.length_cons, Nat.mul_succ]
    omega

theorem Chunked.lt_length (h : Chunked n cs) (hk : n * k < cs.flatten.length) : k < cs.length :=
  Nat.lt_of_mul_lt_mul_left (Nat.lt_of_lt_of_le hk h.length_flatten_le)

end Sync
