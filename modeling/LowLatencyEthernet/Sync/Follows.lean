import LowLatencyEthernet.Sync.Mealy

namespace Sync
set_option autoImplicit true

/-- The circuit `m` follows the transducer `a`. A cycle that carries an item, as `beat` tells, moves
both; any other cycle stalls `a`, and nothing leaves the port of `m`. The guard `Ok` is what the
items have to satisfy where they arrive. -/
structure Follows (m : Mealy σ ι ο) (a : Transducer α β γ) (beat : ι → Option β)
    (port : ο → Option γ) (Ok : α → β → Prop) (Rel : σ → α → Prop) : Prop where
  stall : ∀ {s x i}, Rel s x → beat i = none → Rel (m.next s i) x
  stall_out : ∀ {s x i}, Rel s x → beat i = none → port (m.out s i) = none
  step : ∀ {s x i b}, Rel s x → beat i = some b → Ok x b → Rel (m.next s i) (a.next x b)
  step_out : ∀ {s x i b}, Rel s x → beat i = some b → Ok x b → port (m.out s i) = a.out x b

def answers (m : Mealy σ ι ο) (beat : ι → Option β) (port : ο → Option γ) (s : σ) :
    List ι → List (Option γ)
  | [] => []
  | i :: is =>
    match beat i with
    | none => answers m beat port (m.next s i) is
    | some _ => port (m.out s i) :: answers m beat port (m.next s i) is

def delivered (m : Mealy σ ι ο) (port : ο → Option γ) (s : σ) (is : List ι) : List γ :=
  (m.trace s is).filterMap port

theorem delivered_cons (m : Mealy σ ι ο) (port : ο → Option γ) (s : σ) (i : ι) (is : List ι) :
    delivered m port s (i :: is) =
      (port (m.out s i)).toList ++ delivered m port (m.next s i) is := by
  cases h : port (m.out s i) <;> simp [delivered, h]

theorem delivered_append (m : Mealy σ ι ο) (port : ο → Option γ) (s : σ) (is js : List ι) :
    delivered m port s (is ++ js) =
      delivered m port s is ++ delivered m port (m.run s is) js := by
  simp only [delivered, Mealy.trace_append, List.filterMap_append]

namespace Follows

variable {m : Mealy σ ι ο} {a : Transducer α β γ} {beat : ι → Option β} {port : ο → Option γ}
  {Ok : α → β → Prop} {Rel : σ → α → Prop}

theorem run (h : Follows m a beat port Ok Rel) (hs : Rel s x) {is : List ι}
    (hok : a.Along Ok x (is.filterMap beat)) :
    Rel (m.run s is) (a.run x (is.filterMap beat)) := by
  induction is generalizing s x with
  | nil => exact hs
  | cons i is ih =>
    cases hb : beat i with
    | none =>
      rw [List.filterMap_cons_none hb] at hok ⊢
      exact ih (h.stall hs hb) hok
    | some b =>
      rw [List.filterMap_cons_some hb] at hok ⊢
      exact ih (h.step hs hb hok.1) hok.2

theorem answers_eq (h : Follows m a beat port Ok Rel) (hs : Rel s x) {is : List ι}
    (hok : a.Along Ok x (is.filterMap beat)) :
    answers m beat port s is = a.trace x (is.filterMap beat) := by
  induction is generalizing s x with
  | nil => rfl
  | cons i is ih =>
    cases hb : beat i with
    | none =>
      rw [List.filterMap_cons_none hb] at hok ⊢
      simpa only [answers, hb] using ih (h.stall hs hb) hok
    | some b =>
      rw [List.filterMap_cons_some hb] at hok ⊢
      simp only [answers, hb, Mealy.trace_cons, h.step_out hs hb hok.1,
        ih (h.step hs hb hok.1) hok.2]

theorem delivered_eq (h : Follows m a beat port Ok Rel) (hs : Rel s x) {is : List ι}
    (hok : a.Along Ok x (is.filterMap beat)) :
    delivered m port s is = Transducer.emit a x (is.filterMap beat) := by
  induction is generalizing s x with
  | nil => rfl
  | cons i is ih =>
    cases hb : beat i with
    | none =>
      rw [List.filterMap_cons_none hb] at hok ⊢
      rw [← ih (h.stall hs hb) hok]
      simp only [delivered, Mealy.trace_cons, List.filterMap_cons_none (h.stall_out hs hb)]
    | some b =>
      rw [List.filterMap_cons_some hb] at hok ⊢
      rw [Transducer.emit_cons, ← ih (h.step hs hb hok.1) hok.2, ← h.step_out hs hb hok.1]
      cases hp : port (m.out s i) <;> simp [delivered, hp]

end Follows

end Sync
