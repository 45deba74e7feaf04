import LowLatencyEthernet.Tb.ListOps

namespace LowLatencyEthernet.TbList
set_option autoImplicit true

open Links Links.Heap

variable [DecidableEq α]

/-! `Inv` tells of a state and of the nodes that are still to come. -/

section

variable (along : Heap α → α → α) (body : Heap α × β → α → Heap α × β) (head : α)
  (Inv : List α → Heap α × β → Prop) {l : List α} {s : Heap α × β} {fuel : Nat} {var : α}

theorem loopSafe_foldl
    (hnext : ∀ {x rest s}, Inv (x :: rest) s → some (along s.1 x) = (rest ++ [head]).head?)
    (hstep : ∀ {x rest s}, Inv (x :: rest) s → Inv rest (body s x))
    (hhead : head ∉ l) (hs : Inv l s) (hfuel : l.length < fuel)
    (hvar : some var = (l ++ [head]).head?) :
    loopSafe along body head fuel s var = some (l.foldl body s) ∧ Inv [] (l.foldl body s) := by
  induction l generalizing s fuel var with
  | nil =>
    obtain ⟨fuel, rfl⟩ := Nat.exists_eq_add_of_lt hfuel
    rw [loopSafe, if_pos (Option.some.inj hvar)]
    exact ⟨rfl, hs⟩
  | cons x l ih =>
    obtain ⟨fuel, rfl⟩ := Nat.exists_eq_succ_of_ne_zero (Nat.ne_zero_of_lt hfuel)
    obtain rfl : var = x := Option.some.inj hvar
    have hne : var ≠ head := fun he => hhead (he ▸ List.mem_cons_self)
    rw [loopSafe, if_neg hne]
    exact ih (fun hh => hhead (List.mem_cons_of_mem _ hh)) (hstep hs)
      (Nat.lt_of_succ_lt_succ hfuel) (hnext hs)

theorem loop_foldl
    (hnext : ∀ {x rest s}, Inv (x :: rest) s →
      some (along (body s x).1 x) = (rest ++ [head]).head?)
    (hstep : ∀ {x rest s}, Inv (x :: rest) s → Inv rest (body s x))
    (hhead : head ∉ l) (hs : Inv l s) (hfuel : l.length < fuel)
    (hvar : some var = (l ++ [head]).head?) :
    loop along body head fuel s var = some (l.foldl body s) := by
  induction l generalizing s fuel var with
  | nil =>
    obtain ⟨fuel, rfl⟩ := Nat.exists_eq_add_of_lt hfuel
    rw [loop, if_pos (Option.some.inj hvar)]
    rfl
  | cons x l ih =>
    obtain ⟨fuel, rfl⟩ := Nat.exists_eq_succ_of_ne_zero (Nat.ne_zero_of_lt hfuel)
    obtain rfl : var = x := Option.some.inj hvar
    have hne : var ≠ head := fun he => hhead (he ▸ List.mem_cons_self)
    rw [loop, if_neg hne]
    exact ih (fun hh => hhead (List.mem_cons_of_mem _ hh)) (hstep hs)
      (Nat.lt_of_succ_lt_succ hfuel) (hnext hs)

end

variable {m : Heap α} {a x : α} {l rest : List α} {L : Multiset (Cycle α)} {fuel : Nat}

omit [DecidableEq α] in
theorem head_notMem (hc : m.Circle ↑(a :: l)) : a ∉ l :=
  (List.nodup_cons.1 (Cycle.nodup_coe_iff.1 hc.nodup)).1

omit [DecidableEq α] in
theorem next_mid (done : List α) (hc : m.Circle ↑(a :: (done ++ x :: rest))) :
    some (m.next x) = (rest ++ [a]).head? := by
  have hrot : m.Circle ↑(x :: (rest ++ a :: done)) := (circle_rotate (a :: done) (x :: rest)).1 hc
  rw [← hrot.next_eq]
  cases rest <;> rfl

omit [DecidableEq α] in
theorem reverse_circle (hc : m.Circle ↑(a :: l)) :
    Circle ⟨m.prev, m.next⟩ ↑(a :: l.reverse) := by
  have hrev : Circle ⟨m.prev, m.next⟩ ↑(a :: l).reverse := hc.reverse fun _ _ => ⟨rfl, rfl⟩
  rwa [List.reverse_cons, circle_rotate] at hrev

theorem next_swap (m : Heap α) (a x : α) :
    (swap m a).next x = if x = a then m.prev a else m.next x := Function.update_apply ..

theorem prev_swap (m : Heap α) (a x : α) :
    (swap m a).prev x = if x = a then m.next a else m.prev x := Function.update_apply ..

theorem foldl_swap (hnd : l.Nodup) (m : Heap α) (x : α) :
    (l.foldl swap m).next x = (if x ∈ l then m.prev x else m.next x) ∧
      (l.foldl swap m).prev x = if x ∈ l then m.next x else m.prev x := by
  induction l generalizing m with
  | nil => exact ⟨rfl, rfl⟩
  | cons b l ih =>
    obtain ⟨hb, hnd⟩ := List.nodup_cons.1 hnd
    obtain ⟨hn, hp⟩ := ih hnd (swap m b)
    rw [List.foldl_cons, hn, hp]
    by_cases hx : x = b
    · subst hx
      simp [next_swap, prev_swap, hb]
    · simp [next_swap, prev_swap, hx]

theorem foldl_inv_body (l : List α) (m : Heap α) :
    l.foldl (fun (s : Heap α × Unit) node => (swap s.1 node, ())) (m, ()) =
      (l.foldl swap m, ()) := by
  induction l generalizing m with
  | nil => rfl
  | cons b l ih => exact ih _

theorem inv_eq (hc : m.Circle ↑(a :: l)) (hfuel : l.length < fuel) :
    inv fuel m a = some (swap (l.foldl swap m) a) := by
  have hnd : (a :: l).Nodup := Cycle.nodup_coe_iff.1 hc.nodup
  -- the nodes to come have their pointers as they were
  let Inv (rest : List α) (s : Heap α × Unit) : Prop :=
    (∃ done, l = done ++ rest) ∧ ∀ y ∈ rest, s.1.next y = m.next y
  have hnext {x rest s} (hs : Inv (x :: rest) s) : some (s.1.next x) = (rest ++ [a]).head? := by
    obtain ⟨⟨done, hl⟩, hkept⟩ := hs
    rw [hkept x List.mem_cons_self]
    exact next_mid done (hl ▸ hc)
  have hstep {x rest s} (hs : Inv (x :: rest) s) : Inv rest (swap s.1 x, ()) := by
    obtain ⟨⟨done, hl⟩, hkept⟩ := hs
    have hnd' : (done ++ x :: rest).Nodup := hl ▸ (List.nodup_cons.1 hnd).2
    have hx : x ∉ rest := (List.nodup_cons.1 hnd'.of_append_right).1
    refine ⟨⟨done ++ [x], by rw [hl, List.append_assoc]; rfl⟩, fun y hy => ?_⟩
    rw [next_swap, if_neg (ne_of_mem_of_not_mem hy hx)]
    exact hkept y (List.mem_cons_of_mem _ hy)
  have hloop := loopSafe_foldl Heap.next _ a Inv hnext hstep (head_notMem hc)
    (s := (m, ())) ⟨⟨[], rfl⟩, fun _ _ => rfl⟩ hfuel hc.next_eq.symm
  rw [inv, fs, hloop.1, foldl_inv_body]
  rfl

theorem inv_family (hf : m.Family (↑(a :: l) ::ₘ L)) (hfuel : l.length < fuel) :
    ∃ m', inv fuel m a = some m' ∧ m'.Family (↑(a :: l.reverse) ::ₘ L) := by
  have hc := hf.circle
  have ha : a ∉ l := head_notMem hc
  have hnd : l.Nodup := (List.nodup_cons.1 (Cycle.nodup_coe_iff.1 hc.nodup)).2
  have hswap (x : α) : (swap (l.foldl swap m) a).next x =
        (if x ∈ a :: l then m.prev x else m.next x) ∧
      (swap (l.foldl swap m) a).prev x = if x ∈ a :: l then m.next x else m.prev x := by
    obtain ⟨hn, hp⟩ := foldl_swap hnd m x
    obtain ⟨hna, hpa⟩ := foldl_swap hnd m a
    by_cases hx : x = a
    · subst hx
      simp [next_swap, prev_swap, hna, hpa, ha]
    · simp [next_swap, prev_swap, hn, hp, hx]
  refine ⟨_, inv_eq hc hfuel, hf.of_nodes ?_ ?_⟩
  · have hperm : (a :: l.reverse).Perm (a :: l) := l.reverse_perm.cons a
    rw [nodes_cons, nodes_cons]
    simp only [Cycle.coe_toMultiset, Multiset.coe_eq_coe.2 hperm]
  · intro c hc'
    rcases Multiset.mem_cons.1 hc' with rfl | hc'
    · have hrev := hc.reverse fun x hx => by
        rw [(hswap x).1, (hswap x).2, if_pos hx, if_pos hx]
        exact ⟨rfl, rfl⟩
      rwa [List.reverse_cons, circle_rotate] at hrev
    · refine forall_mem_cycle (fun k hk => ?_) c hc'
      refine (hf.circles _ (Multiset.mem_cons_of_mem hk)).congr fun x hx => ?_
      have hxl : x ∉ a :: l := fun hxl => hf.notMem_rest hk hxl hx
      rw [(hswap x).1, (hswap x).2, if_neg hxl, if_neg hxl]
      exact ⟨rfl, rfl⟩

section

variable {m : Heap α} {a : α} {l : List α} {L : Multiset (Cycle α)} {fuel : Nat}

def removing (visit : β → α → β) (s : Heap α × β) (x : α) : Heap α × β := (rm s.1 x, visit s.2 x)

def looking (visit : β → α → β) (s : Heap α × β) (x : α) : Heap α × β := (s.1, visit s.2 x)

omit [DecidableEq α] in
theorem foldl_looking (visit : β → α → β) (l : List α) (m : Heap α) (b : β) :
    l.foldl (looking visit) (m, b) = (m, l.foldl visit b) := by
  induction l generalizing b with
  | nil => rfl
  | cons x l ih => exact ih _

theorem snd_foldl_removing (visit : β → α → β) (l : List α) (s : Heap α × β) :
    (l.foldl (removing visit) s).2 = l.foldl visit s.2 := by
  induction l generalizing s with
  | nil => rfl
  | cons x l ih => exact ih _

def alone (l : List α) : Multiset (Cycle α) := ↑(l.map fun x => (([x] : List α) : Cycle α))

theorem rm_mid (done rest : List α) (hf : m.Family (↑(a :: (done ++ x :: rest)) ::ₘ L)) :
    (rm m x).Family (↑(a :: (done ++ rest)) ::ₘ ↑[x] ::ₘ L) := by
  have hrot : ((a :: (done ++ x :: rest) : List α) : Cycle α) = ↑(x :: (rest ++ a :: done)) :=
    coe_append_comm (a :: done) (x :: rest)
  have hback : ((a :: (done ++ rest) : List α) : Cycle α) = ↑(rest ++ a :: done) :=
    coe_append_comm (a :: done) rest
  obtain ⟨c, k, hk⟩ : ∃ c k, rest ++ a :: done = c :: k :=
    List.exists_cons_of_ne_nil (List.append_ne_nil_of_right_ne_nil rest (List.cons_ne_nil a done))
  rw [hrot, hk] at hf
  rw [hback, hk, Multiset.cons_swap]
  exact rm_family hf

/-- The list is as it was, and `rest` of it is still to come. -/
def Ahead (m : Heap α) (l rest : List α) (s : Heap α × β) : Prop :=
  (∃ done, l = done ++ rest) ∧ s.1 = m

omit [DecidableEq α] in
theorem Ahead.next {along : Heap α → α → α} (hc : Circle ⟨along m, along'⟩ ↑(a :: l))
    {s : Heap α × β} (hs : Ahead m l (x :: rest) s) :
    some (along s.1 x) = (rest ++ [a]).head? := by
  obtain ⟨⟨done, hl⟩, hm⟩ := hs
  have hmid := next_mid (x := x) done (hl ▸ hc)
  rwa [hm]

omit [DecidableEq α] in
theorem Ahead.step {s : Heap α × β} (hs : Ahead m l (x :: rest) s) (visit : β → α → β) :
    Ahead m l rest (looking visit s x) := by
  obtain ⟨⟨done, hl⟩, hm⟩ := hs
  exact ⟨⟨done ++ [x], by rw [hl, List.append_assoc]; rfl⟩, hm⟩

theorem look_loop (along : Heap α → α → α) (hc : Circle ⟨along m, along'⟩ ↑(a :: l))
    (visit : β → α → β) (b : β) (hfuel : l.length < fuel) :
    loop along (looking visit) a fuel (m, b) (along m a) = some (m, l.foldl visit b) := by
  rw [loop_foldl along (looking visit) a (Ahead m l) (fun hs => hs.next hc)
    (fun hs => hs.step visit) (head_notMem hc) ⟨⟨[], rfl⟩, rfl⟩ hfuel hc.next_eq.symm,
    foldl_looking]

theorem look_loopSafe (along : Heap α → α → α) (hc : Circle ⟨along m, along'⟩ ↑(a :: l))
    (visit : β → α → β) (b : β) (hfuel : l.length < fuel) :
    loopSafe along (looking visit) a fuel (m, b) (along m a) = some (m, l.foldl visit b) := by
  rw [(loopSafe_foldl along (looking visit) a (Ahead m l) (fun hs => hs.next hc)
    (fun hs => hs.step visit) (head_notMem hc) ⟨⟨[], rfl⟩, rfl⟩ hfuel hc.next_eq.symm).1,
    foldl_looking]

omit [DecidableEq α] in
theorem next_rest {rest : List α} (hc : m.Circle ↑(a :: (x :: rest))) :
    some (m.next x) = (rest ++ [a]).head? :=
  next_mid [] hc

omit [DecidableEq α] in
theorem prev_rest {rest : List α} (hc : m.Circle ↑(a :: (x :: rest).reverse)) :
    some (m.prev x) = (rest ++ [a]).head? := by
  have hrev := reverse_circle hc
  rw [List.reverse_reverse] at hrev
  exact next_mid [] hrev

omit [DecidableEq α] in
theorem alone_snoc (done : List α) (x : α) (L : Multiset (Cycle α)) :
    alone (done ++ [x]) + L = ↑[x] ::ₘ (alone done + L) := by
  rw [alone, alone, List.map_append, ← Multiset.coe_add, add_right_comm, add_comm]
  rfl

theorem fs_removing (hf : m.Family (↑(a :: l) ::ₘ L)) (visit : β → α → β) (b : β)
    (hfuel : l.length < fuel) :
    ∃ m', fs fuel (removing visit) a (m, b) = some (m', l.foldl visit b) ∧
      m'.Family (↑[a] ::ₘ (alone l + L)) := by
  let Inv (rest : List α) (s : Heap α × β) : Prop :=
    ∃ done, l = done ++ rest ∧ s.1.Family (↑(a :: rest) ::ₘ (alone done + L))
  have hnext {x rest s} (hs : Inv (x :: rest) s) : some (s.1.next x) = (rest ++ [a]).head? := by
    obtain ⟨done, -, hf⟩ := hs
    exact next_rest hf.circle
  have hstep {x rest s} (hs : Inv (x :: rest) s) : Inv rest (removing visit s x) := by
    obtain ⟨done, hl, hf⟩ := hs
    refine ⟨done ++ [x], by rw [hl, List.append_assoc]; rfl, ?_⟩
    rw [alone_snoc]
    exact rm_mid [] rest hf
  have hstart : Inv l (m, b) := ⟨[], rfl, by rwa [alone, List.map_nil, Multiset.coe_nil, zero_add]⟩
  obtain ⟨hrun, done, hl, hend⟩ := loopSafe_foldl Heap.next _ a Inv hnext hstep
    (head_notMem hf.circle) hstart hfuel hf.circle.next_eq.symm
  rw [List.append_nil] at hl
  refine ⟨_, hrun.trans (congrArg some (Prod.ext rfl (snd_foldl_removing visit l (m, b)))), ?_⟩
  exact hl ▸ hend

theorem fsr_removing (hf : m.Family (↑(a :: l) ::ₘ L)) (visit : β → α → β) (b : β)
    (hfuel : l.length < fuel) :
    ∃ m', fsr fuel (removing visit) a (m, b) = some (m', l.reverse.foldl visit b) ∧
      m'.Family (↑[a] ::ₘ (alone l.reverse + L)) := by
  let Inv (rest : List α) (s : Heap α × β) : Prop :=
    ∃ done, l.reverse = done ++ rest ∧ s.1.Family (↑(a :: rest.reverse) ::ₘ (alone done + L))
  have hnext {x rest s} (hs : Inv (x :: rest) s) : some (s.1.prev x) = (rest ++ [a]).head? := by
    obtain ⟨done, -, hf⟩ := hs
    exact prev_rest hf.circle
  have hstep {x rest s} (hs : Inv (x :: rest) s) : Inv rest (removing visit s x) := by
    obtain ⟨done, hl, hf⟩ := hs
    refine ⟨done ++ [x], by rw [hl, List.append_assoc]; rfl, ?_⟩
    rw [List.reverse_cons] at hf
    rw [alone_snoc]
    have hrm := rm_mid _ [] hf
    rwa [List.append_nil] at hrm
  have hstart : Inv l.reverse (m, b) := by
    refine ⟨[], rfl, ?_⟩
    rwa [List.reverse_reverse, alone, List.map_nil, Multiset.coe_nil, zero_add]
  have hnot : a ∉ l.reverse := fun h => head_notMem hf.circle (List.mem_reverse.1 h)
  obtain ⟨hrun, done, hl, hend⟩ := loopSafe_foldl Heap.prev _ a Inv hnext hstep hnot hstart
    (by rwa [List.length_reverse]) (reverse_circle hf.circle).next_eq.symm
  rw [List.append_nil] at hl
  refine ⟨_, hrun.trans (congrArg some (Prod.ext rfl (snd_foldl_removing visit _ (m, b)))), ?_⟩
  exact hl ▸ hend

/-- A node that its body has removed is visited again and again. -/
theorem loop_removing_alone (visit : β → α → β) (hne : x ≠ a) (fuel : Nat) (s : Heap α × β)
    (hc : s.1.Circle ↑[x]) : loop Heap.next (removing visit) a fuel s x = none := by
  induction fuel generalizing s with
  | zero => rfl
  | succ fuel ih =>
    have hrm := rm_alone hc
    have hstay : (removing visit s x).1.Circle ↑[x] := by rwa [removing, hrm]
    rw [loop, if_neg hne]
    simp only [(circle_singleton.1 hstay).1]
    exact ih _ hstay

theorem f_removing (hf : m.Family (↑(a :: l) ::ₘ L)) (hl : l ≠ []) (visit : β → α → β) (b : β)
    (fuel : Nat) : f fuel (removing visit) a (m, b) = none := by
  obtain ⟨x, k, rfl⟩ := List.exists_cons_of_ne_nil hl
  have hne : x ≠ a := fun he => head_notMem hf.circle (he ▸ List.mem_cons_self)
  have hrm := (rm_mid [] k hf).drop.circle
  have hstart : m.next a = x := hf.circle.next_cons
  rw [f, hstart]
  cases fuel with
  | zero => rfl
  | succ fuel =>
    rw [loop, if_neg hne]
    have hnext : (removing visit (m, b) x).1.next x = x := (circle_singleton.1 hrm).1
    simp only [hnext]
    exact loop_removing_alone visit hne fuel _ hrm

/-- What the four loops over a list do: all of them read it, forwards and backwards, and the two
safe ones may also take out every node. The plain one then never ends. -/
structure Traversed (m : Heap α) (a : α) (l : List α) (L : Multiset (Cycle α)) (fuel : Nat)
    (visit : β → α → β) (b : β) : Prop where
  forwards : f fuel (looking visit) a (m, b) = some (m, l.foldl visit b)
  backwards : fr fuel (looking visit) a (m, b) = some (m, l.reverse.foldl visit b)
  safe : fs fuel (looking visit) a (m, b) = some (m, l.foldl visit b)
  safe_backwards : fsr fuel (looking visit) a (m, b) = some (m, l.reverse.foldl visit b)
  removed : ∃ m', fs fuel (removing visit) a (m, b) = some (m', l.foldl visit b) ∧
    m'.Family (↑[a] ::ₘ (alone l + L))
  removed_backwards : ∃ m', fsr fuel (removing visit) a (m, b) =
    some (m', l.reverse.foldl visit b) ∧ m'.Family (↑[a] ::ₘ (alone l.reverse + L))
  endless : l ≠ [] → ∀ fuel, f fuel (removing visit) a (m, b) = none

theorem traversed (hf : m.Family (↑(a :: l) ::ₘ L)) (visit : β → α → β) (b : β)
    (hfuel : l.length < fuel) : Traversed m a l L fuel visit b where
  forwards := look_loop Heap.next hf.circle visit b hfuel
  backwards := look_loop Heap.prev (reverse_circle hf.circle) visit b
    (by rwa [List.length_reverse])
  safe := look_loopSafe Heap.next hf.circle visit b hfuel
  safe_backwards := look_loopSafe Heap.prev (reverse_circle hf.circle) visit b
    (by rwa [List.length_reverse])
  removed := fs_removing hf visit b hfuel
  removed_backwards := fsr_removing hf visit b hfuel
  endless hl := f_removing hf hl visit b

end

def sampleRing : Heap (Fin 3) := ⟨(· + 1), (· - 1)⟩

theorem sampleRing_family : sampleRing.Family (↑([0, 1, 2] : List (Fin 3)) ::ₘ 0) := by
  refine ⟨fun c hc => ?_, by decide⟩
  rw [Multiset.mem_cons] at hc
  obtain rfl : c = ↑([0, 1, 2] : List (Fin 3)) := hc.resolve_right (Multiset.notMem_zero c)
  refine circle_cons.2 ⟨by decide, fun b hb => ?_, ?_⟩
  · obtain rfl : 1 = b := Option.some.inj hb
    exact ⟨rfl, rfl⟩
  · exact .cons_cons ⟨rfl, rfl⟩ (.cons_cons ⟨rfl, rfl⟩ (.singleton 0))

theorem traversed_sample :
    Traversed sampleRing 0 [1, 2] 0 3 (fun seen x => seen ++ [x]) ([] : List (Fin 3)) :=
  traversed sampleRing_family _ _ (by decide)

end LowLatencyEthernet.TbList
