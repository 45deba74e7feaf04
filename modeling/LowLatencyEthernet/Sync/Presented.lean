import LowLatencyEthernet.Sync.Follows

namespace Sync
set_option autoImplicit true

/-! A circuit that is looked at on its own: its inputs keep a contract, and it is read from the
state on that its first item finds. -/

/-- A circuit whose inputs keep the contract `Good`. -/
def Mealy.under (m : Mealy σ ι ο) (Good : ι → Prop) : Mealy σ {i // Good i} ο :=
  ⟨fun s i => m.next s i.1, fun s i => m.out s i.1⟩

theorem Mealy.run_under (m : Mealy σ ι ο) (Good : ι → Prop) (s : σ) (is : List {i // Good i}) :
    (m.under Good).run s is = m.run s (is.map Subtype.val) := by
  induction is generalizing s with
  | nil => rfl
  | cons i is ih => exact ih _

theorem answers_under (m : Mealy σ ι ο) (Good : ι → Prop) (beat : ι → Option β)
    (port : ο → Option γ) (s : σ) (is : List {i // Good i}) :
    answers (m.under Good) (fun i => beat i.1) port s is =
      answers m beat port s (is.map Subtype.val) := by
  induction is generalizing s with
  | nil => rfl
  | cons i is ih =>
    cases hb : beat i.1 with
    | none =>
      simp only [answers, hb, List.map_cons]
      exact ih _
    | some b =>
      simp only [answers, hb, List.map_cons]
      exact congrArg _ (ih _)

/-- The cycles of `is` carry the items `bs` and keep the contract. -/
structure Carried (beat : ι → Option β) (Good : ι → Prop) (is : List ι) (bs : List β) : Prop where
  beats : is.filterMap beat = bs
  good : ∀ i ∈ is, Good i

theorem exists_cycle {beat : ι → Option β} {is : List ι} (h : is.filterMap beat = bs ++ b :: ds) :
    ∃ pre i post, is = pre ++ i :: post ∧ pre.filterMap beat = bs ∧ beat i = some b ∧
      post.filterMap beat = ds := by
  obtain ⟨l₁, l₂, rfl, h₁, h₂⟩ := List.filterMap_eq_append_iff.1 h
  obtain ⟨l₃, i, l₄, rfl, h₃, hi, h₄⟩ := List.filterMap_eq_cons_iff.1 h₂
  have hnone : l₃.filterMap beat = [] := List.filterMap_eq_nil_iff.2 h₃
  refine ⟨l₁ ++ l₃, i, l₄, (List.append_assoc _ _ _).symm, ?_, hi, h₄⟩
  rw [List.filterMap_append, h₁, hnone, List.append_nil]

/-- The state that the first item finds. -/
def found (m : Mealy σ ι ο) (beat : ι → Option β) (s : σ) : List ι → σ
  | [] => s
  | i :: is =>
    match beat i with
    | none => found m beat (m.next s i) is
    | some _ => s

theorem found_of_stall {m : Mealy σ ι ο} {beat : ι → Option β} {P : σ → Prop}
    (hP : ∀ {s i}, P s → beat i = none → P (m.next s i)) (h : P s) (is : List ι) :
    P (found m beat s is) := by
  induction is generalizing s with
  | nil => exact h
  | cons i is ih =>
    rw [found]
    cases hb : beat i with
    | none => exact ih (hP h hb)
    | some b => exact h

theorem found_cons (m : Mealy σ ι ο) (port : ο → Option γ) {beat : ι → Option β} {is : List ι}
    (h : is.filterMap beat = b :: bs) (s : σ) : ∃ pre i post, is = pre ++ i :: post ∧
      beat i = some b ∧ post.filterMap beat = bs ∧
      m.run s is = m.run (m.next (found m beat s is) i) post ∧
      answers m beat port s is = port (m.out (found m beat s is) i) ::
        answers m beat port (m.next (found m beat s is) i) post := by
  induction is generalizing s with
  | nil => cases h
  | cons i is ih =>
    cases hb : beat i with
    | none =>
      rw [List.filterMap_cons_none hb] at h
      obtain ⟨pre, j, post, rfl, hj, hpost, hrun, hans⟩ := ih h (m.next s i)
      refine ⟨i :: pre, j, post, rfl, hj, hpost, ?_, ?_⟩
      · rw [found, hb]
        exact hrun
      · rw [found, answers, hb]
        exact hans
    | some c =>
      rw [List.filterMap_cons_some hb] at h
      obtain ⟨rfl, rfl⟩ := List.cons.inj h
      refine ⟨[], i, is, rfl, hb, rfl, ?_, ?_⟩
      · rw [found, hb]
        rfl
      · rw [found, answers, hb]

namespace Follows

variable {m : Mealy σ ι ο} {a : Transducer α β γ} {beat : ι → Option β} {port : ο → Option γ}
  {Ok : α → β → Prop} {Rel : σ → α → Prop}

theorem from_found {Good : ι → Prop}
    (h : Follows (m.under Good) a (fun i => beat i.1) port Ok Rel) {is : List ι}
    (hc : Carried beat Good is (b :: bs))
    (hrel : ∀ i, Good i → beat i = some b → Rel (m.next (found m beat s is) i) x)
    (hout : ∀ i, Good i → beat i = some b → port (m.out (found m beat s is) i) = c)
    (hok : a.Along Ok x bs) :
    Rel (m.run s is) (a.run x bs) ∧ answers m beat port s is = c :: a.trace x bs := by
  obtain ⟨hbs, hgood⟩ := hc
  obtain ⟨pre, i, post, his, hi, hpost, hrun, hans⟩ := found_cons m port hbs s
  have hmem (j : ι) (hj : j ∈ i :: post) : Good j := by
    apply hgood
    rw [his]
    exact List.mem_append_right pre hj
  have hi' := hmem i List.mem_cons_self
  obtain ⟨js, rfl⟩ : ∃ js : List {i // Good i}, js.map Subtype.val = post :=
    ⟨post.attachWith Good fun j hj => hmem j (List.mem_cons_of_mem i hj),
      List.attachWith_map_subtype_val _⟩
  rw [List.filterMap_map] at hpost
  subst hpost
  rw [hrun, hans, hout i hi' hi, ← Mealy.run_under, ← answers_under]
  exact ⟨h.run (hrel i hi' hi) hok, congrArg (c :: ·) (h.answers_eq (hrel i hi' hi) hok)⟩

end Follows

end Sync
