import LowLatencyEthernet.Links.Heap

namespace LowLatencyEthernet.TbList
set_option autoImplicit true

/-! The lists of `tb_list.h`. A node is its address, `Heap` holds the fields `next` and `prev` of
all nodes. -/

open Links

variable [DecidableEq α]

def init (m : Heap α) (h : α) : Heap α := m.link h h

def empty (m : Heap α) (h : α) : Bool := m.next h == h

/-- `tb_list_emptyn`, with the successor. -/
def emptyn (m : Heap α) (h : α) : Bool × α :=
  let n := m.next h
  (n == h, n)

def singleton (m : Heap α) (h : α) : Bool := h != m.next h && m.next h == m.prev h

def ia (m : Heap α) (h next : α) : Heap α :=
  let n := m.next h
  (m.link h next).link next n

def ib (m : Heap α) (h prev : α) : Heap α :=
  let p := m.prev h
  (m.link p prev).link prev h

def cb (m : Heap α) (n0 n1 : α) : Heap α :=
  let t0 := m.prev n0
  let t1 := m.prev n1
  (m.link t1 n0).link t0 n1

def ca (m : Heap α) (h0 h1 : α) : Heap α := cb m (m.next h0) h1

/-- Switch `p` and its successor. -/
def sn (m : Heap α) (p : α) : Heap α × α :=
  let n := m.next p
  let pp := m.prev p
  if pp ≠ n then
    let nn := m.next n
    (((m.link pp n).link n p).link p nn, nn)
  else (m, n)

/-- Switch `n` and its predecessor. -/
def sp (m : Heap α) (n : α) : Heap α × α :=
  let p := m.prev n
  let nn := m.next n
  if nn ≠ p then
    let pp := m.prev p
    (((m.link p nn).link n p).link pp n, pp)
  else (m, p)

def rmu (m : Heap α) (l : α) : Heap α :=
  let prev := m.prev l
  let next := m.next l
  m.link prev next

def rm (m : Heap α) (l : α) : Heap α := init (rmu m l) l

/-- Replace `old`, whose own pointers stay. -/
def rpu (m : Heap α) (old nv : α) : Heap α :=
  let n := m.next old
  if n = old then init m nv
  else
    let p := m.prev old
    (m.link p nv).link nv n

def rp (m : Heap α) (old nv : α) : Heap α :=
  let n := m.next old
  if n = old then init m nv
  else
    let p := m.prev old
    init ((m.link p nv).link nv n) old

/-- The four transfers: `remove` takes `src` out of its list and `concat` puts the rest into that
of `dst`. -/
def transfer (remove : Heap α → α → Heap α) (concat : Heap α → α → α → Heap α) (m : Heap α)
    (dst src : α) : Heap α × Bool :=
  let (empty, node) := emptyn m src
  if empty then (m, empty) else (concat (remove m src) dst node, empty)

def trb (m : Heap α) (dst src : α) : Heap α × Bool := transfer rm cb m dst src

def trbu (m : Heap α) (dst src : α) : Heap α × Bool := transfer rmu cb m dst src

def tra (m : Heap α) (dst src : α) : Heap α × Bool := transfer rm ca m dst src

def trau (m : Heap α) (dst src : α) : Heap α × Bool := transfer rmu ca m dst src

/-! The loops run along `next` or along `prev`. Their bodies work on the nodes and on data of their
own, and `none` is a loop that `fuel` does not suffice for. -/

/-- The body must leave `var` in its list. -/
def loop (along : Heap α → α → α) (body : Heap α × β → α → Heap α × β) (head : α) :
    Nat → Heap α × β → α → Option (Heap α × β)
  | 0, _, _ => none
  | fuel + 1, s, var =>
    if var = head then some s
    else
      let s := body s var
      loop along body head fuel s (along s.1 var)

/-- The node after `var` is read before the body runs. -/
def loopSafe (along : Heap α → α → α) (body : Heap α × β → α → Heap α × β) (head : α) :
    Nat → Heap α × β → α → Option (Heap α × β)
  | 0, _, _ => none
  | fuel + 1, s, var =>
    if var = head then some s
    else
      let next := along s.1 var
      loopSafe along body head fuel (body s var) next

variable (fuel : Nat) (body : Heap α × β → α → Heap α × β) (head : α) (s : Heap α × β)

def f : Option (Heap α × β) := loop Heap.next body head fuel s (s.1.next head)

def fr : Option (Heap α × β) := loop Heap.prev body head fuel s (s.1.prev head)

def fs : Option (Heap α × β) := loopSafe Heap.next body head fuel s (s.1.next head)

def fsr : Option (Heap α × β) := loopSafe Heap.prev body head fuel s (s.1.prev head)

/-- `_swap` of the two pointers of a node. -/
def swap (m : Heap α) (a : α) : Heap α :=
  ⟨Function.update m.next a (m.prev a), Function.update m.prev a (m.next a)⟩

def inv (fuel : Nat) (m : Heap α) (head : α) : Option (Heap α) := do
  let (m, _) ← fs fuel (fun s node => (swap s.1 node, ())) head (m, ())
  some (swap m head)

end LowLatencyEthernet.TbList
