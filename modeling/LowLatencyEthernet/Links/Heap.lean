import Mathlib.Data.Set.Defs
import Mathlib.Logic.Function.Basic

namespace Links
set_option autoImplicit true

/-- Where the pointers of every node point. -/
@[ext] structure Heap (α : Type) where
  next : α → α
  prev : α → α

namespace Heap

/-- The two pointers between `a` and `b` agree. -/
def Linked (h : Heap α) (a b : α) : Prop := h.next a = b ∧ h.prev b = a

/-- The nodes of `S` point to one another, and their pointers agree. Nothing is said of the nodes
outside `S`. -/
structure Sound (h : Heap α) (S : Set α) : Prop where
  next_mem : ∀ {a}, a ∈ S → h.next a ∈ S
  prev_mem : ∀ {a}, a ∈ S → h.prev a ∈ S
  prev_next : ∀ {a}, a ∈ S → h.prev (h.next a) = a
  next_prev : ∀ {a}, a ∈ S → h.next (h.prev a) = a

section

variable [DecidableEq α]

/-- Lets `p` and `n` point to each other. -/
def link (h : Heap α) (p n : α) : Heap α :=
  ⟨Function.update h.next p n, Function.update h.prev n p⟩

theorem next_link (h : Heap α) (p n x : α) :
    (h.link p n).next x = if x = p then n else h.next x := Function.update_apply ..

theorem prev_link (h : Heap α) (p n x : α) :
    (h.link p n).prev x = if x = n then p else h.prev x := Function.update_apply ..

def exchange (h : Heap α) (p q : α) : Heap α := (h.link p (h.next q)).link q (h.next p)

theorem next_exchange (h : Heap α) (p q x : α) :
    (h.exchange p q).next x = if x = q then h.next p else if x = p then h.next q else h.next x := by
  rw [exchange, next_link, next_link]

theorem prev_exchange (h : Heap α) (p q x : α) :
    (h.exchange p q).prev x =
      if x = h.next p then q else if x = h.next q then p else h.prev x := by
  rw [exchange, prev_link, prev_link]

theorem exchange_frame {h : Heap α} (hp : a ≠ p) (hq : a ≠ q) (hnp : a ≠ h.next p)
    (hnq : a ≠ h.next q) :
    (h.exchange p q).next a = h.next a ∧ (h.exchange p q).prev a = h.prev a := by
  rw [next_exchange, if_neg hq, if_neg hp, prev_exchange, if_neg hnp, if_neg hnq]
  exact ⟨rfl, rfl⟩

end

end Heap

end Links
