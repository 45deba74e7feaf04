import Mathlib.Data.List.Chain
import Mathlib.Data.List.Cycle
import Mathlib.Data.List.Nodup
import LowLatencyEthernet.Links.Heap

namespace Links
set_option autoImplicit true

theorem isChain_interior {R R' : α → α → Prop} {l : List α}
    (h : ∀ x ∈ l, ∀ y ∈ (l ++ [u]).tail, R x y → R' x y) (hc : (l ++ [u]).IsChain R) :
    (l ++ [u]).IsChain R' := by
  induction l with
  | nil => exact .singleton u
  | cons a l ih =>
    rw [List.cons_append, List.isChain_cons] at hc ⊢
    have htail {y : α} (hy : y ∈ (l ++ [u]).tail) : y ∈ (a :: l ++ [u]).tail :=
      List.mem_of_mem_tail hy
    refine ⟨fun y hy => ?_, ih (fun x hx y hy => h x (List.mem_cons_of_mem _ hx) y (htail hy)) hc.2⟩
    exact h a List.mem_cons_self y (List.mem_of_mem_head? hy) (hc.1 y hy)

namespace Heap

/-- The nodes of `c` are linked in a circle, in this order. -/
structure Circle (h : Heap α) (c : Cycle α) : Prop where
  nodup : c.Nodup
  chain : c.Chain h.Linked

theorem circle_rotate {h : Heap α} (l m : List α) :
    h.Circle ↑(l ++ m) ↔ h.Circle ↑(m ++ l) := by
  have hrot : ((l ++ m : List α) : Cycle α) = ((m ++ l : List α) : Cycle α) :=
    Cycle.coe_eq_coe.2 List.isRotated_append
  rw [hrot]

theorem circle_cons {h : Heap α} {a : α} {l : List α} : h.Circle ↑(a :: l) ↔
    (a :: l).Nodup ∧ (∀ b ∈ (l ++ [a]).head?, h.Linked a b) ∧ (l ++ [a]).IsChain h.Linked := by
  rw [← List.isChain_cons, ← Cycle.chain_coe_cons, ← Cycle.nodup_coe_iff]
  exact ⟨fun hc => ⟨hc.nodup, hc.chain⟩, fun hc => ⟨hc.1, hc.2⟩⟩

theorem circle_singleton {h : Heap α} {a : α} : h.Circle ↑[a] ↔ h.Linked a a := by
  simp [circle_cons]

theorem Circle.next_eq {h : Heap α} {a : α} {l : List α} (hc : h.Circle ↑(a :: l)) :
    (l ++ [a]).head? = some (h.next a) := by
  obtain ⟨b, hb⟩ : ∃ b, (l ++ [a]).head? = some b := by
    cases l with
    | nil => exact ⟨a, rfl⟩
    | cons b l => exact ⟨b, rfl⟩
  rw [hb, ((circle_cons.1 hc).2.1 b hb).1]

theorem Circle.next_cons {h : Heap α} {a b : α} {l : List α} (hc : h.Circle ↑(a :: b :: l)) :
    h.next a = b :=
  (Option.some.inj hc.next_eq).symm

theorem Circle.of_mem {h : Heap α} {l : List α} (hc : h.Circle ↑l) (ha : a ∈ l) :
    ∃ m, h.Circle ↑(a :: m) ∧ ∀ x, x ∈ a :: m ↔ x ∈ l := by
  obtain ⟨front, back, rfl⟩ := List.append_of_mem ha
  refine ⟨back ++ front, ?_, fun x => ?_⟩
  · exact (circle_rotate _ _).1 hc
  · simp only [List.mem_append, List.mem_cons]
    tauto

theorem Circle.prev_eq {h : Heap α} {a b : α} {l : List α} (hc : h.Circle ↑(a :: l ++ [b])) :
    h.prev a = b := by
  have hrot : h.Circle ↑(b :: a :: l) := (circle_rotate (a :: l) [b]).1 hc
  exact ((circle_cons.1 hrot).2.1 a rfl).2

theorem Circle.prev_eq_getLast {h : Heap α} {a : α} {l : List α} (hc : h.Circle ↑(a :: l)) :
    h.prev a = (a :: l).getLast (List.cons_ne_nil a l) := by
  rcases List.eq_nil_or_concat l with rfl | ⟨m, b, rfl⟩
  · exact (circle_singleton.1 hc).2
  · rw [List.concat_eq_append] at hc
    simpa using hc.prev_eq

theorem Circle.sound {h : Heap α} {l : List α} (hc : h.Circle ↑l) : h.Sound {a | a ∈ l} := by
  have hnext {a : α} (ha : a ∈ l) : h.next a ∈ l ∧ h.prev (h.next a) = a := by
    obtain ⟨m, hm, hmem⟩ := hc.of_mem ha
    have hin : h.next a ∈ m ++ [a] := List.mem_of_mem_head? hm.next_eq
    exact ⟨(hmem _).1 (by simpa [or_comm] using hin), ((circle_cons.1 hm).2.1 _ hm.next_eq).2⟩
  have hprev {a : α} (ha : a ∈ l) : ∃ b ∈ l, h.Linked b a := by
    obtain ⟨m, hm, hmem⟩ := hc.of_mem ha
    rcases List.eq_nil_or_concat m with rfl | ⟨m, b, rfl⟩
    · exact ⟨a, ha, circle_singleton.1 hm⟩
    · rw [List.concat_eq_append] at hm hmem
      have hrot : h.Circle ↑(b :: a :: m) := (circle_rotate (a :: m) [b]).1 hm
      exact ⟨b, (hmem b).1 (by simp), (circle_cons.1 hrot).2.1 a rfl⟩
  refine ⟨fun ha => (hnext ha).1, fun ha => ?_, fun ha => (hnext ha).2, fun ha => ?_⟩
  · obtain ⟨b, hb, hlink⟩ := hprev ha
    exact hlink.2 ▸ hb
  · obtain ⟨b, _, hlink⟩ := hprev ha
    rw [hlink.2, hlink.1]

theorem Circle.congr {h h' : Heap α} {l : List α} (hc : h.Circle ↑l)
    (he : ∀ a ∈ l, h'.next a = h.next a ∧ h'.prev a = h.prev a) : h'.Circle ↑l := by
  cases l with
  | nil => exact ⟨hc.nodup, Cycle.Chain.nil _⟩
  | cons a l =>
    rw [circle_cons] at hc ⊢
    have hmem {x : α} (hx : x ∈ l ++ [a]) : x ∈ a :: l := by simpa [or_comm] using hx
    have hlink {x y : α} (hx : x ∈ l ++ [a]) (hy : y ∈ l ++ [a]) (hxy : h.Linked x y) :
        h'.Linked x y :=
      ⟨(he x (hmem hx)).1.trans hxy.1, (he y (hmem hy)).2.trans hxy.2⟩
    refine ⟨hc.1, fun b hb => ?_, ?_⟩
    · exact hlink (List.mem_append_right _ List.mem_cons_self) (List.mem_of_mem_head? hb)
        (hc.2.1 b hb)
    · exact hc.2.2.imp_of_mem_imp fun x y hx hy => hlink hx hy

theorem notMem_tail {l : List α} (hnd : l.Nodup) (ha : l.head? = some a) : a ∉ l.tail := by
  rw [← List.cons_head?_tail ha] at hnd
  exact (List.nodup_cons.1 hnd).1

theorem perm_cross (p q : α) (l m : List α) : (p :: l ++ q :: m).Perm (p :: m ++ q :: l) := by
  classical
  rw [List.perm_iff_count]
  intro x
  simp only [List.count_append, List.count_cons]
  omega

theorem perm_halves (p q : α) (l m : List α) :
    ((l ++ [p]) ++ (m ++ [q])).Perm (p :: m ++ q :: l) :=
  ((List.perm_append_singleton p l).append (List.perm_append_singleton q m)).trans
    (perm_cross p q l m)

section

variable [DecidableEq α] {h : Heap α} {p q : α} {l m : List α}

theorem isChain_exchange (hp : p ∉ l) (hq : q ∉ l) (hnp : h.next p ∉ (l ++ [u]).tail)
    (hnq : h.next q ∉ (l ++ [u]).tail) (hc : (l ++ [u]).IsChain h.Linked) :
    (l ++ [u]).IsChain (h.exchange p q).Linked := by
  refine isChain_interior (fun x hx y hy hlink => ⟨?_, ?_⟩) hc
  · rw [next_exchange, if_neg (ne_of_mem_of_not_mem hx hq), if_neg (ne_of_mem_of_not_mem hx hp),
      hlink.1]
  · rw [prev_exchange, if_neg (ne_of_mem_of_not_mem hy hnp),
      if_neg (ne_of_mem_of_not_mem hy hnq), hlink.2]

/-- Two segments behind `p` and `q`, which may end in either of them, change places. -/
theorem segments_exchange (hnd : ((l ++ [u]) ++ (m ++ [v])).Nodup) (hne : p ≠ q) (hpl : p ∉ l)
    (hql : q ∉ l) (hpm : p ∉ m) (hqm : q ∉ m) (hnp : (l ++ [u]).head? = some (h.next p))
    (hnq : (m ++ [v]).head? = some (h.next q)) (hl : (l ++ [u]).IsChain h.Linked)
    (hm : (m ++ [v]).IsChain h.Linked) :
    ((l ++ [u]).IsChain (h.exchange p q).Linked ∧ (m ++ [v]).IsChain (h.exchange p q).Linked) ∧
      (∀ b ∈ (m ++ [v]).head?, (h.exchange p q).Linked p b) ∧
        ∀ b ∈ (l ++ [u]).head?, (h.exchange p q).Linked q b := by
  obtain ⟨hndl, hndm, hd⟩ := List.nodup_append'.1 hnd
  have hmeml := List.mem_of_mem_head? hnp
  have hmemm := List.mem_of_mem_head? hnq
  have hnext : h.next q ≠ h.next p := fun he => hd hmeml (he ▸ hmemm)
  refine ⟨⟨?_, ?_⟩, fun b hb => ?_, fun b hb => ?_⟩
  · exact isChain_exchange hpl hql (notMem_tail hndl hnp)
      (fun hx => hd (List.mem_of_mem_tail hx) hmemm) hl
  · exact isChain_exchange hpm hqm (fun hx => hd hmeml (List.mem_of_mem_tail hx))
      (notMem_tail hndm hnq) hm
  · rw [← Option.some.inj (hnq.symm.trans hb)]
    refine ⟨?_, ?_⟩
    · rw [next_exchange, if_neg hne, if_pos rfl]
    · rw [prev_exchange, if_neg hnext, if_pos rfl]
  · rw [← Option.some.inj (hnp.symm.trans hb)]
    exact ⟨by rw [next_exchange, if_pos rfl], by rw [prev_exchange, if_pos rfl]⟩

theorem Circle.join (hp : h.Circle ↑(p :: l)) (hq : h.Circle ↑(q :: m))
    (hd : (p :: l).Disjoint (q :: m)) : (h.exchange p q).Circle ↑(p :: m ++ q :: l) := by
  obtain ⟨hndp, -, hcp⟩ := circle_cons.1 hp
  obtain ⟨hndq, -, hcq⟩ := circle_cons.1 hq
  have hswap : ((l ++ [p]) ++ (m ++ [q])).Perm ((p :: l) ++ (q :: m)) :=
    (List.perm_append_singleton p l).append (List.perm_append_singleton q m)
  have hnd : ((l ++ [p]) ++ (m ++ [q])).Nodup := hswap.nodup_iff.2 (hndp.append hndq hd)
  have hne : p ≠ q := by
    rintro rfl
    exact hd List.mem_cons_self List.mem_cons_self
  obtain ⟨⟨hsegp, hsegq⟩, hpq, hqp⟩ := segments_exchange hnd hne (List.nodup_cons.1 hndp).1
    (fun hx => hd (List.mem_cons_of_mem p hx) List.mem_cons_self)
    (fun hx => hd List.mem_cons_self (List.mem_cons_of_mem q hx)) (List.nodup_cons.1 hndq).1
    hp.next_eq hq.next_eq hcp hcq
  have hback : m ++ q :: l ++ [p] = (m ++ [q]) ++ (l ++ [p]) := by simp
  rw [List.cons_append, circle_cons, hback]
  refine ⟨(perm_halves p q l m).nodup_iff.1 hnd, ?_, ?_⟩
  · intro b hb
    rw [List.head?_append_of_ne_nil _ (by simp)] at hb
    exact hpq b hb
  · refine hsegq.append hsegp fun x hx => ?_
    rw [List.getLast?_append_cons, List.getLast?_singleton, Option.mem_some_iff] at hx
    exact hx ▸ hqp

theorem Circle.split (hc : h.Circle ↑(p :: l ++ q :: m)) :
    (h.exchange p q).Circle ↑(p :: m) ∧ (h.exchange p q).Circle ↑(q :: l) := by
  have hrot : h.Circle ↑(q :: m ++ p :: l) := (circle_rotate _ _).1 hc
  obtain ⟨hndp, hndq, hd⟩ := List.nodup_append'.1 (Cycle.nodup_coe_iff.1 hc.nodup)
  have hne : p ≠ q := by
    rintro rfl
    exact hd List.mem_cons_self List.mem_cons_self
  rw [List.cons_append] at hc hrot
  have hnp := hc.next_eq
  have hnq := hrot.next_eq
  have hback : l ++ q :: m ++ [p] = (l ++ [q]) ++ (m ++ [p]) := by simp
  have hfront : m ++ p :: l ++ [q] = (m ++ [p]) ++ (l ++ [q]) := by simp
  obtain ⟨hnd, -, hchain⟩ := circle_cons.1 hc
  rw [hback, List.isChain_append] at hchain
  rw [hback, List.head?_append_of_ne_nil _ (by simp)] at hnp
  rw [hfront, List.head?_append_of_ne_nil _ (by simp)] at hnq
  have hnd' : ((l ++ [q]) ++ (m ++ [p])).Nodup :=
    ((perm_halves q p l m).trans List.perm_append_comm).nodup_iff.2 hnd
  obtain ⟨⟨hsegq, hsegp⟩, hpm, hql⟩ := segments_exchange hnd' hne (List.nodup_cons.1 hndp).1
    (fun hx => hd (List.mem_cons_of_mem p hx) List.mem_cons_self)
    (fun hx => hd List.mem_cons_self (List.mem_cons_of_mem q hx)) (List.nodup_cons.1 hndq).1
    hnp hnq hchain.1 hchain.2.1
  obtain ⟨hndl, hndm, -⟩ := List.nodup_append'.1 hnd'
  rw [circle_cons, circle_cons]
  exact ⟨⟨(List.perm_append_singleton p m).nodup_iff.1 hndm, hpm, hsegp⟩,
    (List.perm_append_singleton q l).nodup_iff.1 hndl, hql, hsegq⟩

theorem Circle.exchange_frame (hc : h.Circle ↑l) (hp : h.prev (h.next p) = p)
    (hq : h.prev (h.next q) = q) (hpl : p ∉ l) (hql : q ∉ l) : (h.exchange p q).Circle ↑l := by
  refine hc.congr fun a ha => ?_
  have hne (b : α) (hb : h.prev (h.next b) = b) (hbl : b ∉ l) : a ≠ h.next b := by
    rintro rfl
    have hprev := hc.sound.prev_mem ha
    rw [hb] at hprev
    exact hbl hprev
  exact Heap.exchange_frame (ne_of_mem_of_not_mem ha hpl) (ne_of_mem_of_not_mem ha hql)
    (hne p hp hpl) (hne q hq hql)

end

theorem Circle.reverse {h h' : Heap α} {l : List α} (hc : h.Circle ↑l)
    (he : ∀ a ∈ l, h'.next a = h.prev a ∧ h'.prev a = h.next a) : h'.Circle ↑l.reverse := by
  cases l with
  | nil => exact ⟨hc.nodup, Cycle.Chain.nil _⟩
  | cons a l =>
    have hchain : (a :: (l ++ [a])).IsChain h.Linked := (Cycle.chain_coe_cons _ a l).1 hc.chain
    have hmem {x : α} (hx : x ∈ a :: (l ++ [a])) : x ∈ a :: l := by
      simp only [List.mem_cons, List.mem_append, List.not_mem_nil, or_false] at hx ⊢
      tauto
    have hback : (a :: (l ++ [a])).IsChain fun x y => h'.Linked y x := by
      refine hchain.imp_of_mem_imp fun x y hx hy hlink => ⟨?_, ?_⟩
      · rw [(he y (hmem hy)).1, hlink.2]
      · rw [(he x (hmem hx)).2, hlink.1]
    have hrev : (a :: (l.reverse ++ [a])).IsChain h'.Linked := by
      rw [← List.isChain_reverse] at hback
      simpa using hback
    rw [List.reverse_cons, circle_rotate]
    refine ⟨?_, (Cycle.chain_coe_cons _ a l.reverse).2 hrev⟩
    have hnd : (a :: l).Nodup := Cycle.nodup_coe_iff.1 hc.nodup
    exact Cycle.nodup_coe_iff.2 ((l.reverse_perm.cons a).nodup_iff.2 hnd)

end Heap

end Links
