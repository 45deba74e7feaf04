import LowLatencyEthernet.Links.Family
import LowLatencyEthernet.Tb.TbList

namespace LowLatencyEthernet.TbList
set_option autoImplicit true

open Links Links.Heap

section

variable {m : Heap α} {a : α} {l : List α} {L : Multiset (Cycle α)}

theorem exists_last (hc : m.Circle ↑(a :: l)) : ∃ front, a :: l = front ++ [m.prev a] := by
  rcases List.eq_nil_or_concat l with rfl | ⟨front, b, rfl⟩
  · exact ⟨[], congrArg (· :: []) (circle_singleton.1 hc).2.symm⟩
  · rw [List.concat_eq_append] at hc ⊢
    have hprev : m.prev a = b := hc.prev_eq
    exact ⟨a :: front, by rw [hprev, List.cons_append]⟩

theorem coe_snoc (front : List α) (p : α) :
    ((front ++ [p] : List α) : Cycle α) = ↑(p :: front) :=
  Cycle.coe_eq_coe.2 List.isRotated_append

theorem coe_append_comm (l k : List α) :
    ((l ++ k : List α) : Cycle α) = ((k ++ l : List α) : Cycle α) :=
  Cycle.coe_eq_coe.2 List.isRotated_append

theorem fresh_of_family (hf : m.Family (↑[a] ::ₘ L)) : a ∉ nodes L := by
  have hnd := hf.nodup
  rw [nodes_cons] at hnd
  exact (Multiset.nodup_cons.1 (by simpa using hnd)).1

theorem link_of_linked [DecidableEq α] (hl : m.Linked a b) : m.link a b = m := by
  ext x
  · rw [next_link]
    split
    · rw [‹x = a›, hl.1]
    · rfl
  · rw [prev_link]
    split
    · rw [‹x = b›, hl.2]
    · rfl

end

section

variable [DecidableEq α]

theorem link_insert (m : Heap α) (a b n : α) :
    ((m.link b b).link a b).link b n = (m.link a b).link b n := by
  ext x <;> simp only [next_link, prev_link] <;> split_ifs <;> rfl

theorem link_replace (m : Heap α) (o v n : α) :
    ((m.link v o).link v n).link o o = (m.link v n).link o o := by
  ext x <;> simp only [next_link, prev_link] <;> split_ifs <;> rfl

theorem link_comm (m : Heap α) (hac : a ≠ c) (hbd : b ≠ d) :
    (m.link a b).link c d = (m.link c d).link a b := by
  ext x <;> simp only [next_link, prev_link] <;> split_ifs <;> simp_all

variable {m : Heap α} {a b : α} {l k : List α} {L : Multiset (Cycle α)}

theorem ia_family (hf : m.Family (↑(a :: l) ::ₘ L)) (hb : b ∉ nodes (↑(a :: l) ::ₘ L)) :
    (ia m a b).Family (↑(a :: b :: l) ::ₘ L) := by
  have hab : a ≠ b := by
    rintro rfl
    exact hb (by simp)
  have hadd := hf.add hb
  rw [Multiset.cons_swap] at hadd
  have hjoin := hadd.join
  have hia : (m.link b b).exchange a b = ia m a b := by
    rw [exchange, next_link, if_pos rfl, next_link, if_neg hab, link_insert]
    rfl
  rwa [hia] at hjoin

theorem ib_family (hf : m.Family (↑(a :: l) ::ₘ L)) (hb : b ∉ nodes (↑(a :: l) ::ₘ L)) :
    (ib m a b).Family (↑(a :: l ++ [b]) ::ₘ L) := by
  have hback : m.next (m.prev a) = a := hf.circle.sound.next_prev List.mem_cons_self
  have hib : ib m a b = ia m (m.prev a) b := by
    rw [ia, hback]
    rfl
  obtain ⟨front, hfront⟩ := exists_last hf.circle
  rw [hfront, coe_snoc] at hf hb
  rw [hib, hfront, List.append_assoc, coe_append_comm]
  exact ia_family hf hb

theorem cb_eq (ha : m.next (m.prev a) = a) (hb : m.next (m.prev b) = b) :
    cb m a b = m.exchange (m.prev b) (m.prev a) := by
  rw [exchange, ha, hb]
  rfl

theorem cb_family (hf : m.Family (↑(a :: l) ::ₘ ↑(b :: k) ::ₘ L)) :
    (cb m a b).Family (↑(a :: l ++ b :: k) ::ₘ L) := by
  have ha := hf.circle
  have hb := hf.drop.circle
  rw [cb_eq (ha.sound.next_prev List.mem_cons_self) (hb.sound.next_prev List.mem_cons_self)]
  obtain ⟨f, hfa⟩ := exists_last ha
  obtain ⟨g, hgb⟩ := exists_last hb
  generalize m.prev a = s at hfa ⊢
  generalize m.prev b = t at hgb ⊢
  rw [hfa, hgb, coe_snoc, coe_snoc, Multiset.cons_swap] at hf
  have hends : ((f ++ [s] ++ (g ++ [t]) : List α) : Cycle α) = ↑(t :: f ++ s :: g) := by
    rw [← List.append_assoc, coe_snoc]
    simp
  rw [hfa, hgb, hends]
  exact hf.join

theorem cb_family_split (hf : m.Family (↑(a :: l ++ b :: k) ::ₘ L)) :
    (cb m a b).Family (↑(a :: l) ::ₘ ↑(b :: k) ::ₘ L) := by
  have ha : m.next (m.prev a) = a := hf.circle.sound.next_prev (by simp)
  have hb : m.next (m.prev b) = b := hf.circle.sound.next_prev (by simp)
  have hrot : m.Circle ↑(b :: k ++ a :: l) := (circle_rotate _ _).1 hf.circle
  obtain ⟨f, s, hfs⟩ : ∃ f s, a :: l = f ++ [s] :=
    ⟨_, _, (List.dropLast_append_getLast (List.cons_ne_nil a l)).symm⟩
  obtain ⟨g, t, hgt⟩ : ∃ g t, b :: k = g ++ [t] :=
    ⟨_, _, (List.dropLast_append_getLast (List.cons_ne_nil b k)).symm⟩
  have hs : m.prev b = s := by
    rw [hfs, List.cons_append, ← List.append_assoc] at hrot
    exact hrot.prev_eq
  have ht : m.prev a = t := by
    have hc := hf.circle
    rw [hgt, List.cons_append, ← List.append_assoc] at hc
    exact hc.prev_eq
  have hends : ((f ++ [s] ++ (g ++ [t]) : List α) : Cycle α) = ↑(s :: g ++ t :: f) := by
    rw [List.append_assoc, coe_append_comm]
    simp
  rw [cb_eq ha hb, hs, ht]
  rw [hfs, hgt, hends] at hf
  rw [hfs, hgt, coe_snoc, coe_snoc]
  exact hf.split

theorem ca_family (hf : m.Family (↑(a :: l) ::ₘ ↑(b :: k) ::ₘ L)) :
    (ca m a b).Family (↑(a :: b :: k ++ l) ::ₘ L) := by
  obtain ⟨c, l', hl'⟩ : ∃ c l', l ++ [a] = c :: l' :=
    List.exists_cons_of_ne_nil (List.append_ne_nil_of_right_ne_nil l (List.cons_ne_nil a []))
  have hnext : m.next a = c := by
    have hhead := hf.circle.next_eq
    rw [hl'] at hhead
    exact (Option.some.inj hhead).symm
  have hback : ((a :: b :: k ++ l : List α) : Cycle α) = ↑(c :: l' ++ b :: k) := by
    rw [← hl', List.append_assoc, coe_append_comm l]
    rfl
  rw [Cycle.coe_cons_eq_coe_append, hl'] at hf
  rw [ca, hnext, hback]
  exact cb_family hf

theorem rm_family (hf : m.Family (↑(a :: b :: l) ::ₘ L)) :
    (rm m a).Family (↑[a] ::ₘ ↑(b :: l) ::ₘ L) := by
  have hback : m.next (m.prev a) = a := hf.circle.sound.next_prev List.mem_cons_self
  have hrm : rm m a = m.exchange (m.prev a) a := by
    rw [exchange, hback]
    rfl
  obtain ⟨front, p, hp⟩ : ∃ f p, b :: l = f ++ [p] :=
    ⟨_, _, (List.dropLast_append_getLast (List.cons_ne_nil b l)).symm⟩
  rw [hp] at hf ⊢
  have hprev : m.prev a = p := hf.circle.prev_eq
  rw [← List.cons_append, coe_snoc] at hf
  rw [hrm, hprev, coe_snoc, Multiset.cons_swap]
  exact Family.split (l := []) hf

theorem rm_alone (hc : m.Circle ↑[a]) : rm m a = m := by
  have hl := circle_singleton.1 hc
  have hrmu : rmu m a = m := by
    rw [rmu, hl.1, hl.2]
    exact link_of_linked hl
  rw [rm, hrmu]
  exact link_of_linked hl

theorem rmu_family (hf : (rm m a).Family (↑[a] ::ₘ L)) : (rmu m a).Family L := by
  refine hf.drop.congr fun x hx => ?_
  have hne : x ≠ a := ne_of_mem_of_not_mem hx (fresh_of_family hf)
  rw [rm, init, next_link, if_neg hne, prev_link, if_neg hne]
  exact ⟨rfl, rfl⟩

theorem rp_eq (hc : m.Circle ↑(a :: b :: l)) (hv : v ∉ a :: b :: l) :
    rp m a v = rm (ia m (m.prev a) v) a := by
  have hback : m.next (m.prev a) = a := hc.sound.next_prev List.mem_cons_self
  have hnd : a ≠ b := by
    rintro rfl
    simpa using hc.nodup
  have hp : a ≠ m.prev a := by
    intro he
    rw [← he, hc.next_cons] at hback
    exact hnd hback.symm
  have hva : a ≠ v := ne_of_mem_of_not_mem List.mem_cons_self hv
  have hprev : (ia m (m.prev a) v).prev a = v := by
    rw [ia, hback, prev_link, if_pos rfl]
  have hnext : (ia m (m.prev a) v).next a = m.next a := by
    rw [ia, next_link, if_neg hva, next_link, if_neg hp]
  have hne : m.next a ≠ a := by
    rw [hc.next_cons]
    exact hnd.symm
  rw [rm, rmu, hprev, hnext, rp, if_neg hne, init, init, ia, hback, link_replace]

theorem rp_family (hf : m.Family (↑(a :: l) ::ₘ L)) (hv : v ∉ nodes (↑(a :: l) ::ₘ L)) :
    (rp m a v).Family (↑[a] ::ₘ ↑(v :: l) ::ₘ L) := by
  cases l with
  | nil =>
    have hnext := (circle_singleton.1 hf.circle).1
    rw [rp, if_pos hnext, Multiset.cons_swap]
    exact hf.add hv
  | cons b l =>
    have hv' : v ∉ a :: b :: l := by
      rw [nodes_cons, Multiset.mem_add, not_or] at hv
      simpa using hv.1
    rw [rp_eq hf.circle hv']
    obtain ⟨front, p, hp⟩ : ∃ f p, b :: l = f ++ [p] :=
      ⟨_, _, (List.dropLast_append_getLast (List.cons_ne_nil b l)).symm⟩
    rw [hp] at hf hv ⊢
    have hprev : m.prev a = p := hf.circle.prev_eq
    rw [← List.cons_append, coe_snoc] at hf hv
    have hins := ia_family hf hv
    have hrot : ((p :: v :: a :: front : List α) : Cycle α) = ↑(a :: (front ++ [p, v])) :=
      coe_append_comm [p, v] (a :: front)
    have hends : ((v :: (front ++ [p]) : List α) : Cycle α) = ↑(front ++ [p, v]) := by
      rw [Cycle.coe_cons_eq_coe_append, List.append_assoc]
      rfl
    rw [hrot] at hins
    rw [hprev, hends]
    obtain ⟨c, rest, hrest⟩ : ∃ c rest, front ++ [p, v] = c :: rest :=
      List.exists_cons_of_ne_nil (List.append_ne_nil_of_right_ne_nil _ (List.cons_ne_nil _ _))
    rw [hrest] at hins ⊢
    exact rm_family hins

theorem rpu_family (hf : m.Family (↑(a :: l) ::ₘ L)) (hv : v ∉ nodes (↑(a :: l) ::ₘ L)) :
    (rpu m a v).Family (↑(v :: l) ::ₘ L) := by
  have hrp := rp_family hf hv
  refine hrp.drop.congr fun x hx => ?_
  have hne : x ≠ a := ne_of_mem_of_not_mem hx (fresh_of_family hrp)
  simp only [rpu, rp]
  split
  · exact ⟨rfl, rfl⟩
  · rw [init, next_link _ a, if_neg hne, prev_link _ _ a, if_neg hne]
    exact ⟨rfl, rfl⟩

theorem sn_alone (hc : m.Circle ↑[a]) : sn m a = (m, a) := by
  have hl := circle_singleton.1 hc
  simp [sn, hl.1, hl.2]

theorem sn_pair (hc : m.Circle ↑[a, b]) : sn m a = (m, b) := by
  have hprev : m.prev a = b := Circle.prev_eq (l := []) hc
  simp [sn, hc.next_cons, hprev]

/-- In a longer list `p` is taken out and put back after its successor. -/
theorem sn_eq (hc : m.Circle ↑(a :: b :: c :: l)) : sn m a = (ia (rm m a) b a, c) := by
  have hnd : (a :: b :: c :: l).Nodup := Cycle.nodup_coe_iff.1 hc.nodup
  have hrot : m.Circle ↑(b :: c :: (l ++ [a])) := (circle_rotate [a] (b :: c :: l)).1 hc
  have hn : m.next a = b := hc.next_cons
  have hnn : m.next b = c := hrot.next_cons
  obtain ⟨front, p, hp⟩ : ∃ f p, c :: l = f ++ [p] :=
    ⟨_, _, (List.dropLast_append_getLast (List.cons_ne_nil c l)).symm⟩
  have hprev : m.prev a = p := by
    rw [hp] at hc
    exact Circle.prev_eq (l := b :: front) hc
  have hpb : p ≠ b := by
    rintro rfl
    have hmem : p ∈ c :: l := hp ▸ List.mem_append_right _ List.mem_cons_self
    exact (List.nodup_cons.1 (List.nodup_cons.1 hnd).2).1 hmem
  have hba : b ≠ a := by
    rintro rfl
    exact (List.nodup_cons.1 hnd).1 List.mem_cons_self
  have hnext : (rm m a).next b = c := by
    rw [rm, init, next_link, if_neg hba, rmu, next_link, hprev, if_neg hpb.symm, hnn]
  simp only [sn, hn, hnn, hprev]
  rw [if_pos hpb, ia, hnext, rm, init, link_insert, rmu, hn, hprev]

theorem sn_family (hf : m.Family (↑(a :: b :: l) ::ₘ L)) :
    (sn m a).1.Family (↑(b :: a :: l) ::ₘ L) ∧ some (sn m a).2 = (l ++ [b]).head? := by
  cases l with
  | nil =>
    rw [sn_pair hf.circle]
    exact ⟨(coe_snoc [b] a).symm ▸ hf, rfl⟩
  | cons c l =>
    have hrm := rm_family hf
    have hfresh := fresh_of_family hrm
    rw [sn_eq hf.circle]
    exact ⟨ia_family hrm.drop hfresh, rfl⟩

/-- The other switch makes the same links in the other order. -/
theorem sp_eq (hc : m.Circle ↑(a :: b :: l)) :
    sp m b = ((sn m a).1, if l = [] then a else m.prev a) := by
  have hnd : (a :: b :: l).Nodup := Cycle.nodup_coe_iff.1 hc.nodup
  have hrot : m.Circle ↑(b :: l ++ [a]) := (circle_rotate [a] (b :: l)).1 hc
  have hn : m.next a = b := hc.next_cons
  have hp : m.prev b = a := hrot.prev_eq
  cases l with
  | nil =>
    have hnn : m.next b = a := Circle.next_cons (l := []) hrot
    rw [sn_pair hc]
    simp [sp, hnn, hp]
  | cons c l =>
    have hnn : m.next b = c := Circle.next_cons (l := l ++ [a]) hrot
    obtain ⟨front, q, hq⟩ : ∃ f q, c :: l = f ++ [q] :=
      ⟨_, _, (List.dropLast_append_getLast (List.cons_ne_nil c l)).symm⟩
    have hprev : m.prev a = q := by
      rw [hq] at hc
      exact Circle.prev_eq (l := b :: front) hc
    have hqmem : q ∈ c :: l := hq ▸ List.mem_append_right _ List.mem_cons_self
    have hab : a ≠ b ∧ a ∉ c :: l := by simpa using (List.nodup_cons.1 hnd).1
    have hb : b ∉ c :: l := (List.nodup_cons.1 (List.nodup_cons.1 hnd).2).1
    have hca : c ≠ a := ne_of_mem_of_not_mem List.mem_cons_self hab.2
    have hqa : q ≠ a := ne_of_mem_of_not_mem hqmem hab.2
    have hqb : q ≠ b := ne_of_mem_of_not_mem hqmem hb
    have hcb : c ≠ b := ne_of_mem_of_not_mem List.mem_cons_self hb
    simp only [sp, sn, hn, hnn, hp, hprev]
    rw [if_pos hca, if_pos hqb, if_neg (List.cons_ne_nil c l), link_comm _ hab.1 hca,
      link_comm _ hqa.symm hcb, link_comm m hqb hab.1.symm]

theorem transfer_empty (hc : m.Circle ↑[a]) (remove concat) :
    transfer remove concat m b a = (m, true) := by
  simp [transfer, emptyn, (circle_singleton.1 hc).1]

theorem transfer_cons (hc : m.Circle ↑(a :: c :: l)) (remove concat) :
    transfer remove concat m b a = (concat (remove m a) b c, false) := by
  have hne : c ≠ a := by
    rintro rfl
    simpa using hc.nodup
  simp [transfer, emptyn, hc.next_cons, hne]

theorem transfer_family (after : List α → List α) (hnil : after [] = a :: l)
    (hcat : ∀ {m : Heap α} {c : α} {k : List α} {L : Multiset (Cycle α)},
      m.Family (↑(a :: l) ::ₘ ↑(c :: k) ::ₘ L) →
        (concat m a c).Family (↑(after (c :: k)) ::ₘ L))
    (hf : m.Family (↑(a :: l) ::ₘ ↑(b :: k) ::ₘ L)) :
    (transfer rm concat m a b).1.Family (↑(after k) ::ₘ ↑[b] ::ₘ L) ∧
      (transfer rm concat m a b).2 = decide (k = []) := by
  cases k with
  | nil =>
    rw [transfer_empty hf.drop.circle, hnil]
    exact ⟨hf, rfl⟩
  | cons c k =>
    rw [transfer_cons hf.drop.circle]
    rw [Multiset.cons_swap] at hf
    have hrm := rm_family hf
    rw [Multiset.cons_swap, Multiset.cons_swap (([b] : List α) : Cycle α),
      Multiset.cons_swap] at hrm
    exact ⟨hcat hrm, rfl⟩

theorem transfer_family_unsafe (after : List α → List α) (hnil : after [] = a :: l)
    (hcat : ∀ {m : Heap α} {c : α} {k : List α} {L : Multiset (Cycle α)},
      m.Family (↑(a :: l) ::ₘ ↑(c :: k) ::ₘ L) →
        (concat m a c).Family (↑(after (c :: k)) ::ₘ L))
    (hf : m.Family (↑(a :: l) ::ₘ ↑(b :: k) ::ₘ L)) :
    (transfer rmu concat m a b).1.Family (↑(after k) ::ₘ L) ∧
      (transfer rmu concat m a b).2 = decide (k = []) := by
  cases k with
  | nil =>
    rw [transfer_empty hf.drop.circle, hnil]
    rw [Multiset.cons_swap] at hf
    exact ⟨hf.drop, rfl⟩
  | cons c k =>
    rw [transfer_cons hf.drop.circle]
    rw [Multiset.cons_swap] at hf
    have hrm := rmu_family (rm_family hf)
    rw [Multiset.cons_swap] at hrm
    exact ⟨hcat hrm, rfl⟩

end

end LowLatencyEthernet.TbList
