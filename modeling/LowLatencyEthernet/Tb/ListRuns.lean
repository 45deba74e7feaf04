import LowLatencyEthernet.Tb.ListLoops

namespace LowLatencyEthernet.TbList
set_option autoImplicit true

open Links Links.Heap

variable [DecidableEq α]

inductive Op (α : Type) where
  | init (h : α)
  | empty (h : α)
  | singleton (h : α)
  | ia (h next : α)
  | ib (h prev : α)
  | cb (n0 n1 : α)
  | ca (h0 h1 : α)
  | sn (p : α)
  | sp (n : α)
  | rmu (l : α)
  | rm (l : α)
  | rpu (old nv : α)
  | rp (old nv : α)
  | trb (dst src : α)
  | trbu (dst src : α)
  | tra (dst src : α)
  | trau (dst src : α)
  | inv (head : α)

inductive Reply (α : Type) where
  | unit
  | flag (b : Bool)
  | node (a : α)
deriving DecidableEq

def Op.call (fuel : Nat) (m : Heap α) : Op α → Option (Heap α × Reply α)
  | .init h => some (TbList.init m h, .unit)
  | .empty h => some (m, .flag (TbList.empty m h))
  | .singleton h => some (m, .flag (TbList.singleton m h))
  | .ia h next => some (TbList.ia m h next, .unit)
  | .ib h prev => some (TbList.ib m h prev, .unit)
  | .cb n0 n1 => some (TbList.cb m n0 n1, .unit)
  | .ca h0 h1 => some (TbList.ca m h0 h1, .unit)
  | .sn p => some ((TbList.sn m p).map id .node)
  | .sp n => some ((TbList.sp m n).map id .node)
  | .rmu l => some (TbList.rmu m l, .unit)
  | .rm l => some (TbList.rm m l, .unit)
  | .rpu old nv => some (TbList.rpu m old nv, .unit)
  | .rp old nv => some (TbList.rp m old nv, .unit)
  | .trb dst src => some ((TbList.trb m dst src).map id .flag)
  | .trbu dst src => some ((TbList.trbu m dst src).map id .flag)
  | .tra dst src => some ((TbList.tra m dst src).map id .flag)
  | .trau dst src => some ((TbList.trau m dst src).map id .flag)
  | .inv head => (TbList.inv fuel m head).map fun m => (m, .unit)

def calls (fuel : Nat) (m : Heap α) : List (Op α) → Option (Heap α × List (Reply α))
  | [] => some (m, [])
  | op :: ops => do
    let (m, r) ← op.call fuel m
    let (m, rs) ← calls fuel m ops
    some (m, r :: rs)

/-! A list is a sequence of nodes with its head in front, and it may be entered at any node. -/

/-- `a` is on none of the circles `L`, or alone on one of them; `L₀` are the others. -/
inductive Loose : Multiset (Cycle α) → α → Multiset (Cycle α) → Prop
  | new (ha : a ∉ nodes L) : Loose L a L
  | alone (a : α) (L : Multiset (Cycle α)) : Loose (↑[a] ::ₘ L) a L

/-- One operation on lists, where the code permits it. -/
inductive Step : Multiset (Cycle α) → Op α → Reply α → Multiset (Cycle α) → Prop
  | init (ha : Loose L a L₀) : Step L (.init a) .unit (↑[a] ::ₘ L₀)
  | empty (a : α) (l : List α) (L : Multiset (Cycle α)) :
    Step (↑(a :: l) ::ₘ L) (.empty a) (.flag (decide (l = []))) (↑(a :: l) ::ₘ L)
  | singleton (a : α) (l : List α) (L : Multiset (Cycle α)) :
    Step (↑(a :: l) ::ₘ L) (.singleton a) (.flag (decide (l.length = 1))) (↑(a :: l) ::ₘ L)
  | ia (hb : Loose L b (↑(a :: l) ::ₘ L₀)) : Step L (.ia a b) .unit (↑(a :: b :: l) ::ₘ L₀)
  | ib (hb : Loose L b (↑(a :: l) ::ₘ L₀)) : Step L (.ib a b) .unit (↑(a :: l ++ [b]) ::ₘ L₀)
  | cb (a b : α) (l k : List α) (L : Multiset (Cycle α)) :
    Step (↑(a :: l) ::ₘ ↑(b :: k) ::ₘ L) (.cb a b) .unit (↑(a :: l ++ b :: k) ::ₘ L)
  -- on one list the call cuts it in two
  | cut (a b : α) (l k : List α) (L : Multiset (Cycle α)) :
    Step (↑(a :: l ++ b :: k) ::ₘ L) (.cb a b) .unit (↑(a :: l) ::ₘ ↑(b :: k) ::ₘ L)
  | ca (a b : α) (l k : List α) (L : Multiset (Cycle α)) :
    Step (↑(a :: l) ::ₘ ↑(b :: k) ::ₘ L) (.ca a b) .unit (↑(a :: b :: k ++ l) ::ₘ L)
  | snAlone (a : α) (L : Multiset (Cycle α)) :
    Step (↑[a] ::ₘ L) (.sn a) (.node a) (↑[a] ::ₘ L)
  | sn (a b : α) (l : List α) (L : Multiset (Cycle α)) :
    Step (↑(a :: b :: l) ::ₘ L) (.sn a) (.node (l.headD b)) (↑(b :: a :: l) ::ₘ L)
  | spAlone (a : α) (L : Multiset (Cycle α)) :
    Step (↑[a] ::ₘ L) (.sp a) (.node a) (↑[a] ::ₘ L)
  | sp (a b : α) (l : List α) (L : Multiset (Cycle α)) :
    Step (↑(a :: b :: l) ::ₘ L) (.sp b) (.node (l.getLastD a)) (↑(b :: a :: l) ::ₘ L)
  | rmuAlone (a : α) (L : Multiset (Cycle α)) : Step (↑[a] ::ₘ L) (.rmu a) .unit L
  | rmu (a b : α) (l : List α) (L : Multiset (Cycle α)) :
    Step (↑(a :: b :: l) ::ₘ L) (.rmu a) .unit (↑(b :: l) ::ₘ L)
  | rmAlone (a : α) (L : Multiset (Cycle α)) : Step (↑[a] ::ₘ L) (.rm a) .unit (↑[a] ::ₘ L)
  | rm (a b : α) (l : List α) (L : Multiset (Cycle α)) :
    Step (↑(a :: b :: l) ::ₘ L) (.rm a) .unit (↑[a] ::ₘ ↑(b :: l) ::ₘ L)
  | rpu (hv : Loose L v (↑(a :: l) ::ₘ L₀)) : Step L (.rpu a v) .unit (↑(v :: l) ::ₘ L₀)
  | rp (hv : Loose L v (↑(a :: l) ::ₘ L₀)) :
    Step L (.rp a v) .unit (↑[a] ::ₘ ↑(v :: l) ::ₘ L₀)
  | trb (a b : α) (l k : List α) (L : Multiset (Cycle α)) :
    Step (↑(a :: l) ::ₘ ↑(b :: k) ::ₘ L) (.trb a b) (.flag (decide (k = [])))
      (↑(a :: l ++ k) ::ₘ ↑[b] ::ₘ L)
  | trbu (a b : α) (l k : List α) (L : Multiset (Cycle α)) :
    Step (↑(a :: l) ::ₘ ↑(b :: k) ::ₘ L) (.trbu a b) (.flag (decide (k = [])))
      (↑(a :: l ++ k) ::ₘ L)
  | tra (a b : α) (l k : List α) (L : Multiset (Cycle α)) :
    Step (↑(a :: l) ::ₘ ↑(b :: k) ::ₘ L) (.tra a b) (.flag (decide (k = [])))
      (↑(a :: k ++ l) ::ₘ ↑[b] ::ₘ L)
  | trau (a b : α) (l k : List α) (L : Multiset (Cycle α)) :
    Step (↑(a :: l) ::ₘ ↑(b :: k) ::ₘ L) (.trau a b) (.flag (decide (k = [])))
      (↑(a :: k ++ l) ::ₘ L)
  | inv (a : α) (l : List α) (L : Multiset (Cycle α)) :
    Step (↑(a :: l) ::ₘ L) (.inv a) .unit (↑(a :: l.reverse) ::ₘ L)

inductive Steps : Multiset (Cycle α) → List (Op α) → List (Reply α) → Multiset (Cycle α) → Prop
  | nil (L : Multiset (Cycle α)) : Steps L [] [] L
  | cons (h : Step L op r L') (hs : Steps L' ops rs L'') : Steps L (op :: ops) (r :: rs) L''

variable {m : Heap α} {a : α} {l : List α} {L L' L₀ : Multiset (Cycle α)} {op : Op α} {r : Reply α}
  {ops : List (Op α)} {rs : List (Reply α)} {fuel : Nat}

omit [DecidableEq α] in
theorem Loose.fresh (h : Loose L a L₀) (hf : m.Family L) : m.Family L₀ ∧ a ∉ nodes L₀ := by
  cases h with
  | new ha => exact ⟨hf, ha⟩
  | alone a L => exact ⟨hf.drop, fresh_of_family hf⟩

omit [DecidableEq α] in
theorem Loose.card_le (h : Loose L a L₀) : (nodes L₀).card ≤ (nodes L).card := by
  cases h with
  | new ha => exact Nat.le_refl _
  | alone a L =>
    rw [nodes_cons, Multiset.card_add]
    exact Nat.le_add_left _ _

omit [DecidableEq α] in
theorem Step.card_le (h : Step L op r L') : (nodes L').card ≤ (nodes L).card + 1 := by
  cases h
  case init h | ia h | ib h | rpu h | rp h =>
    have hle := h.card_le
    simp only [nodes_cons, Cycle.coe_toMultiset, Multiset.card_add, Multiset.coe_card,
      List.length_append, List.length_cons, List.length_nil] at hle ⊢
    omega
  all_goals
    simp only [nodes_cons, Cycle.coe_toMultiset, Multiset.card_add, Multiset.coe_card,
      List.length_append, List.length_cons, List.length_nil, List.length_reverse]
    omega

theorem empty_eq (hc : m.Circle ↑(a :: l)) : TbList.empty m a = decide (l = []) := by
  cases l with
  | nil => simp [TbList.empty, (circle_singleton.1 hc).1]
  | cons b l =>
    have hne : b ≠ a := by
      rintro rfl
      simpa using hc.nodup
    simp [TbList.empty, hc.next_cons, hne]

theorem singleton_eq (hc : m.Circle ↑(a :: l)) :
    TbList.singleton m a = decide (l.length = 1) := by
  cases l with
  | nil => simp [TbList.singleton, (circle_singleton.1 hc).1]
  | cons b l =>
    have hnd : (a :: b :: l).Nodup := Cycle.nodup_coe_iff.1 hc.nodup
    have hab : a ≠ b := by
      rintro rfl
      exact (List.nodup_cons.1 hnd).1 List.mem_cons_self
    obtain ⟨front, hfront⟩ := exists_last hc
    cases l with
    | nil =>
      have hprev : m.prev a = b := Circle.prev_eq (l := []) hc
      simp [TbList.singleton, hc.next_cons, hprev, hab]
    | cons c l =>
      have hlast : m.prev a = (c :: l).getLast (List.cons_ne_nil c l) := by
        rw [hc.prev_eq_getLast]
        simp
      have hne : b ≠ m.prev a := by
        intro he
        have hmem : b ∈ c :: l := by
          rw [he, hlast]
          exact List.getLast_mem _
        exact (List.nodup_cons.1 (List.nodup_cons.1 hnd).2).1 hmem
      simp [TbList.singleton, hc.next_cons, hne]

theorem Step.refined (h : Step L op r L') (hf : m.Family L) (hfuel : (nodes L).card ≤ fuel) :
    ∃ m', op.call fuel m = some (m', r) ∧ m'.Family L' := by
  cases h with
  | init ha =>
    obtain ⟨hf, ha⟩ := ha.fresh hf
    exact ⟨_, rfl, hf.add ha⟩
  | empty a l L =>
    refine ⟨m, ?_, hf⟩
    rw [Op.call, empty_eq hf.circle]
  | singleton a l L =>
    refine ⟨m, ?_, hf⟩
    rw [Op.call, singleton_eq hf.circle]
  | ia hb =>
    obtain ⟨hf, hb⟩ := hb.fresh hf
    exact ⟨_, rfl, ia_family hf hb⟩
  | ib hb =>
    obtain ⟨hf, hb⟩ := hb.fresh hf
    exact ⟨_, rfl, ib_family hf hb⟩
  | cb a b l k L => exact ⟨_, rfl, cb_family hf⟩
  | cut a b l k L => exact ⟨_, rfl, cb_family_split hf⟩
  | ca a b l k L => exact ⟨_, rfl, ca_family hf⟩
  | snAlone a L =>
    refine ⟨m, ?_, hf⟩
    rw [Op.call, sn_alone hf.circle]
    rfl
  | sn a b l L =>
    obtain ⟨hfam, hreply⟩ := sn_family hf
    have hnode : (TbList.sn m a).2 = l.headD b := by
      apply Option.some.inj
      rw [hreply]
      cases l <;> rfl
    refine ⟨_, ?_, hfam⟩
    rw [← hnode]
    rfl
  | spAlone a L =>
    have hl := circle_singleton.1 hf.circle
    refine ⟨m, ?_, hf⟩
    simp [Op.call, TbList.sp, hl.1, hl.2]
  | sp a b l L =>
    obtain ⟨hfam, -⟩ := sn_family hf
    refine ⟨_, ?_, hfam⟩
    rw [Op.call, sp_eq hf.circle]
    cases l with
    | nil => rfl
    | cons c l =>
      rw [if_neg (List.cons_ne_nil c l), hf.circle.prev_eq_getLast]
      rfl
  | rmuAlone a L =>
    refine ⟨_, rfl, rmu_family (a := a) ?_⟩
    rwa [rm_alone hf.circle]
  | rmu a b l L => exact ⟨_, rfl, rmu_family (rm_family hf)⟩
  | rmAlone a L =>
    refine ⟨_, rfl, ?_⟩
    rwa [rm_alone hf.circle]
  | rm a b l L => exact ⟨_, rfl, rm_family hf⟩
  | rpu hv =>
    obtain ⟨hf, hv⟩ := hv.fresh hf
    exact ⟨_, rfl, rpu_family hf hv⟩
  | rp hv =>
    obtain ⟨hf, hv⟩ := hv.fresh hf
    exact ⟨_, rfl, rp_family hf hv⟩
  | trb a b l k L =>
    obtain ⟨hfam, hflag⟩ := transfer_family (a :: l ++ ·) (List.append_nil _)
      (fun hf => cb_family hf) hf
    refine ⟨_, ?_, hfam⟩
    rw [← hflag]
    rfl
  | trbu a b l k L =>
    obtain ⟨hfam, hflag⟩ := transfer_family_unsafe (a :: l ++ ·) (List.append_nil _)
      (fun hf => cb_family hf) hf
    refine ⟨_, ?_, hfam⟩
    rw [← hflag]
    rfl
  | tra a b l k L =>
    obtain ⟨hfam, hflag⟩ := transfer_family (fun k => a :: k ++ l) rfl
      (fun hf => ca_family hf) hf
    refine ⟨_, ?_, hfam⟩
    rw [← hflag]
    rfl
  | trau a b l k L =>
    obtain ⟨hfam, hflag⟩ := transfer_family_unsafe (fun k => a :: k ++ l) rfl
      (fun hf => ca_family hf) hf
    refine ⟨_, ?_, hfam⟩
    rw [← hflag]
    rfl
  | inv a l L =>
    have hlen : l.length < fuel := by
      simp only [nodes_cons, Cycle.coe_toMultiset, Multiset.card_add, Multiset.coe_card,
        List.length_cons] at hfuel
      omega
    obtain ⟨m', hrun, hfam⟩ := inv_family hf hlen
    refine ⟨m', ?_, hfam⟩
    rw [Op.call, hrun]
    rfl

/-- Over any sequence of permitted calls the memory holds the lists, in their order and apart from
each other, and the replies are right. -/
theorem calls_refine (hs : Steps L ops rs L') (hf : m.Family L)
    (hfuel : (nodes L).card + ops.length ≤ fuel) :
    ∃ m', calls fuel m ops = some (m', rs) ∧ m'.Family L' := by
  induction hs generalizing m with
  | nil L => exact ⟨m, rfl, hf⟩
  | cons h hs ih =>
    rw [List.length_cons] at hfuel
    obtain ⟨m₁, hcall, hf₁⟩ := h.refined hf (Nat.le_trans (Nat.le_add_right _ _) hfuel)
    have hcard := h.card_le
    obtain ⟨m₂, hcalls, hf₂⟩ := ih hf₁ (by omega)
    refine ⟨m₂, ?_, hf₂⟩
    rw [calls, hcall]
    simp only [Option.bind_eq_bind, Option.bind_some, hcalls]

/-- From a memory where nothing is a list yet. -/
theorem calls_refine_sample : ∃ m',
    calls 8 ⟨fun _ => 9, fun _ => 9⟩
        [.init 0, .init 1, .ia 0 1, .ib 0 2, .init 3, .trb 3 0, .inv 3, .sn 3] =
      some (m', [.unit, .unit, .unit, .unit, .unit, .flag false, .unit, .node 1]) ∧
    m'.Family (↑([2, 3, 1] : List Nat) ::ₘ ↑([0] : List Nat) ::ₘ 0) :=
  calls_refine
    (.cons (.init (.new (by decide))) (.cons (.init (.new (by decide))) (.cons (.ia (.alone 1 _))
      (.cons (.ib (.new (by decide))) (.cons (.init (.new (by decide)))
        (.cons (.trb 3 0 [] [1, 2] 0) (.cons (.inv 3 [1, 2] _) (.cons (.sn 3 2 [1] _)
          (.nil _)))))))))
    (family_zero _) (by decide)

end LowLatencyEthernet.TbList
