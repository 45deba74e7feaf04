import Mathlib.Data.Multiset.Bind
import LowLatencyEthernet.Links.Circle

namespace Links
set_option autoImplicit true

def nodes (L : Multiset (Cycle α)) : Multiset α := L.bind Cycle.toMultiset

@[simp] theorem nodes_cons (c : Cycle α) (L : Multiset (Cycle α)) :
    nodes (c ::ₘ L) = c.toMultiset + nodes L := Multiset.cons_bind ..

theorem notMem_nodes {c : Cycle α} (hc : c ∈ L) (ha : a ∉ nodes L) : a ∉ c.toMultiset :=
  fun h => ha (Multiset.mem_bind.2 ⟨c, hc, h⟩)

namespace Heap

/-- The circles of `L` are in the heap, and no two of them share a node. -/
structure Family (h : Heap α) (L : Multiset (Cycle α)) : Prop where
  circles : ∀ c ∈ L, h.Circle c
  nodup : (nodes L).Nodup

theorem family_zero (h : Heap α) : h.Family 0 := ⟨nofun, Multiset.nodup_zero⟩

section

variable {h h' : Heap α} {L : Multiset (Cycle α)} {c : Cycle α}

theorem Family.drop (hf : h.Family (c ::ₘ L)) : h.Family L := by
  refine ⟨fun d hd => hf.circles d (Multiset.mem_cons_of_mem hd), ?_⟩
  have hnd := hf.nodup
  rw [nodes_cons] at hnd
  exact (Multiset.nodup_add.1 hnd).2.1

theorem Family.of_nodes {L' : Multiset (Cycle α)} (hf : h.Family L) (hn : nodes L' = nodes L)
    (hc : ∀ c ∈ L', h'.Circle c) : h'.Family L' :=
  ⟨hc, hn ▸ hf.nodup⟩

theorem Family.circle (hf : h.Family (c ::ₘ L)) : h.Circle c :=
  hf.circles c (Multiset.mem_cons_self c L)

theorem Family.notMem_rest {l m : List α} (hf : h.Family (↑l ::ₘ L)) (hm : (↑m : Cycle α) ∈ L)
    (ha : a ∈ l) : a ∉ m := by
  have hnd := hf.nodup
  rw [nodes_cons, Multiset.nodup_add] at hnd
  have hdis : a ∉ nodes L := Multiset.disjoint_left.1 hnd.2.2 (by simpa using ha)
  simpa using notMem_nodes hm hdis

theorem forall_mem_cycle {P : Cycle α → Prop} (hP : ∀ l : List α, ↑l ∈ L → P ↑l) :
    ∀ c ∈ L, P c := by
  intro c hc
  obtain ⟨l, rfl⟩ := Quotient.exists_rep c
  exact hP l hc

theorem Family.congr (hf : h.Family L)
    (he : ∀ a ∈ nodes L, h'.next a = h.next a ∧ h'.prev a = h.prev a) : h'.Family L := by
  refine ⟨forall_mem_cycle fun l hl => (hf.circles _ hl).congr fun a ha => he a ?_, hf.nodup⟩
  exact Multiset.mem_bind.2 ⟨_, hl, by simpa using ha⟩

theorem Circle.prev_next {l : List α} (hc : h.Circle ↑l) (ha : a ∈ l) :
    h.prev (h.next a) = a :=
  hc.sound.prev_next ha

variable [DecidableEq α]

theorem Family.add (hf : h.Family L) (ha : a ∉ nodes L) :
    (h.link a a).Family (↑[a] ::ₘ L) := by
  have hframe : (h.link a a).Family L := by
    refine hf.congr fun b hb => ?_
    have hne : b ≠ a := ne_of_mem_of_not_mem hb ha
    rw [next_link, if_neg hne, prev_link, if_neg hne]
    exact ⟨rfl, rfl⟩
  refine ⟨fun c hc => ?_, ?_⟩
  · rcases Multiset.mem_cons.1 hc with rfl | hc
    · refine circle_singleton.2 ⟨?_, ?_⟩
      · rw [next_link, if_pos rfl]
      · rw [prev_link, if_pos rfl]
    · exact hframe.circles c hc
  · rw [nodes_cons]
    simpa using Multiset.nodup_cons.2 ⟨ha, hf.nodup⟩

theorem Family.join {l m : List α} (hf : h.Family (↑(p :: l) ::ₘ ↑(q :: m) ::ₘ L)) :
    (h.exchange p q).Family (↑(p :: m ++ q :: l) ::ₘ L) := by
  have hp := hf.circle
  have hq := hf.drop.circle
  have hd : (p :: l).Disjoint (q :: m) := fun x hx hx' =>
    hf.notMem_rest (Multiset.mem_cons_self _ _) hx hx'
  refine hf.of_nodes ?_ ?_
  · rw [nodes_cons, nodes_cons, nodes_cons, ← add_assoc]
    simp only [Cycle.coe_toMultiset, Multiset.coe_add, Multiset.coe_eq_coe.2 (perm_cross p q m l)]
  · intro c hc
    rcases Multiset.mem_cons.1 hc with rfl | hc
    · exact hp.join hq hd
    · refine forall_mem_cycle (fun k hk => ?_) c hc
      have hk' : (↑k : Cycle α) ∈ ↑(q :: m) ::ₘ L := Multiset.mem_cons_of_mem hk
      exact (hf.circles _ (Multiset.mem_cons_of_mem hk')).exchange_frame
        (hp.prev_next List.mem_cons_self) (hq.prev_next List.mem_cons_self)
        (hf.notMem_rest hk' List.mem_cons_self) (hf.drop.notMem_rest hk List.mem_cons_self)

theorem Family.split {l m : List α} (hf : h.Family (↑(p :: l ++ q :: m) ::ₘ L)) :
    (h.exchange p q).Family (↑(p :: m) ::ₘ ↑(q :: l) ::ₘ L) := by
  have hc := hf.circle
  have hp : p ∈ p :: l ++ q :: m := List.mem_append_left _ List.mem_cons_self
  have hq : q ∈ p :: l ++ q :: m := List.mem_append_right _ List.mem_cons_self
  obtain ⟨hpm, hql⟩ := hc.split
  refine hf.of_nodes ?_ ?_
  · rw [nodes_cons, nodes_cons, nodes_cons, ← add_assoc]
    simp only [Cycle.coe_toMultiset, Multiset.coe_add, Multiset.coe_eq_coe.2 (perm_cross p q m l)]
  · intro c hc'
    rcases Multiset.mem_cons.1 hc' with rfl | hc'
    · exact hpm
    rcases Multiset.mem_cons.1 hc' with rfl | hc'
    · exact hql
    · refine forall_mem_cycle (fun k hk => ?_) c hc'
      exact (hf.circles _ (Multiset.mem_cons_of_mem hk)).exchange_frame (hc.prev_next hp)
        (hc.prev_next hq) (hf.notMem_rest hk hp) (hf.notMem_rest hk hq)

end

end Heap

end Links
