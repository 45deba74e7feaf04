import Mathlib.Algebra.Ring.Nat
import Mathlib.Data.List.Basic

namespace Sync
set_option autoImplicit true

theorem forall_getElem? {l : List α} {P : Nat → α → Prop} (h : ∀ k (hk : k < l.length), P k l[k]) :
    ∀ k a, l[k]? = some a → P k a := by
  intro k a ha
  obtain ⟨hk, rfl⟩ := List.getElem?_eq_some_iff.1 ha
  exact h k hk

/-- A synchronous circuit: registers `σ`, one input `ι` and one output `ο` in every clock cycle. -/
structure Mealy (σ ι ο : Type) where
  next : σ → ι → σ
  out : σ → ι → ο

namespace Mealy

def run (m : Mealy σ ι ο) (s : σ) : List ι → σ
  | [] => s
  | i :: is => m.run (m.next s i) is

def trace (m : Mealy σ ι ο) (s : σ) : List ι → List ο
  | [] => []
  | i :: is => m.out s i :: m.trace (m.next s i) is

@[simp] theorem run_nil (m : Mealy σ ι ο) (s : σ) : m.run s [] = s := rfl

@[simp] theorem run_cons (m : Mealy σ ι ο) (s : σ) (i : ι) (is : List ι) :
    m.run s (i :: is) = m.run (m.next s i) is := rfl

@[simp] theorem trace_nil (m : Mealy σ ι ο) (s : σ) : m.trace s [] = [] := rfl

@[simp] theorem trace_cons (m : Mealy σ ι ο) (s : σ) (i : ι) (is : List ι) :
    m.trace s (i :: is) = m.out s i :: m.trace (m.next s i) is := rfl

theorem run_append (m : Mealy σ ι ο) (s : σ) (is js : List ι) :
    m.run s (is ++ js) = m.run (m.run s is) js := by
  induction is generalizing s with
  | nil => rfl
  | cons i is ih => exact ih _

theorem run_take_succ (m : Mealy σ ι ο) {s : σ} {is : List ι} (h : is[k]? = some i) :
    m.run s (is.take (k + 1)) = m.next (m.run s (is.take k)) i := by
  rw [List.take_add_one, h, run_append]
  rfl

theorem trace_append (m : Mealy σ ι ο) (s : σ) (is js : List ι) :
    m.trace s (is ++ js) = m.trace s is ++ m.trace (m.run s is) js := by
  induction is generalizing s with
  | nil => rfl
  | cons i is ih => simp only [List.cons_append, trace, run, ih]

theorem length_trace (m : Mealy σ ι ο) (s : σ) (is : List ι) :
    (m.trace s is).length = is.length := by
  induction is generalizing s with
  | nil => rfl
  | cons i is ih => exact congrArg Nat.succ (ih _)

theorem trace_take (m : Mealy σ ι ο) (s : σ) (is : List ι) (k : Nat) :
    m.trace s (is.take k) = (m.trace s is).take k := by
  induction is generalizing s k with
  | nil => simp
  | cons i is ih =>
    cases k with
    | zero => rfl
    | succ k => simp only [List.take_succ_cons, trace, ih]

theorem getElem?_trace (m : Mealy σ ι ο) (s : σ) (is : List ι) (k : Nat) :
    (m.trace s is)[k]? = is[k]?.map (m.out (m.run s (is.take k))) := by
  induction is generalizing s k with
  | nil => rfl
  | cons i is ih =>
    cases k with
    | zero => rfl
    | succ k => exact ih (m.next s i) k

theorem trace_eq_mapIdx (m : Mealy σ ι ο) (s : σ) (is : List ι) :
    m.trace s is = is.mapIdx fun k i => m.out (m.run s (is.take k)) i := by
  apply List.ext_getElem?
  intro k
  rw [getElem?_trace, List.getElem?_mapIdx]

/-- The guards `Ok` of the cycles hold one after the other. -/
def Along (m : Mealy σ ι ο) (Ok : σ → ι → Prop) (s : σ) : List ι → Prop
  | [] => True
  | i :: is => Ok s i ∧ m.Along Ok (m.next s i) is

@[simp] theorem along_nil (m : Mealy σ ι ο) (Ok : σ → ι → Prop) (s : σ) : m.Along Ok s [] :=
  True.intro

@[simp] theorem along_cons (m : Mealy σ ι ο) (Ok : σ → ι → Prop) (s : σ) (i : ι) (is : List ι) :
    m.Along Ok s (i :: is) ↔ Ok s i ∧ m.Along Ok (m.next s i) is := Iff.rfl

instance decidableAlong (m : Mealy σ ι ο) (Ok : σ → ι → Prop) [∀ s i, Decidable (Ok s i)] :
    (s : σ) → (is : List ι) → Decidable (m.Along Ok s is)
  | _, [] => .isTrue True.intro
  | s, i :: is =>
    have := decidableAlong m Ok (m.next s i) is
    inferInstanceAs (Decidable (_ ∧ _))

theorem along_append (m : Mealy σ ι ο) (Ok : σ → ι → Prop) (s : σ) (is js : List ι) :
    m.Along Ok s (is ++ js) ↔ m.Along Ok s is ∧ m.Along Ok (m.run s is) js := by
  induction is generalizing s with
  | nil => simp only [List.nil_append, run_nil, along_nil, true_and]
  | cons i is ih => simp only [List.cons_append, Along, run, ih, and_assoc]

theorem along_iff (m : Mealy σ ι ο) {Ok : σ → ι → Prop} {s : σ} {is : List ι} :
    m.Along Ok s is ↔ ∀ pre i post, is = pre ++ i :: post → Ok (m.run s pre) i := by
  constructor
  · rintro h pre i post rfl
    rw [along_append] at h
    exact h.2.1
  · intro h
    induction is generalizing s with
    | nil => exact True.intro
    | cons i is ih =>
      refine ⟨h [] i is rfl, ih ?_⟩
      rintro pre j post rfl
      exact h (i :: pre) j post rfl

theorem along_dropLast_iff (m : Mealy σ ι ο) {Ok : σ → ι → Prop} {s : σ} {is : List ι} :
    m.Along Ok s is.dropLast ↔
      ∀ pre i j post, is = pre ++ i :: j :: post → Ok (m.run s pre) i := by
  rw [along_iff]
  constructor
  · rintro h pre i j post rfl
    apply h pre i (j :: post).dropLast
    rw [List.dropLast_append_of_ne_nil (List.cons_ne_nil _ _)]
    rfl
  · intro h pre i post hdrop
    rcases List.eq_nil_or_concat is with rfl | ⟨front, last, rfl⟩
    · simp at hdrop
    · rw [List.concat_eq_append, List.dropLast_concat] at hdrop
      rw [List.concat_eq_append, hdrop] at h
      cases post with
      | nil => exact h pre i last [] (by simp)
      | cons j post => exact h pre i j (post ++ [last]) (by simp)

theorem along_of_forall (m : Mealy σ ι ο) {Ok : σ → ι → Prop} {is : List ι}
    (h : ∀ s, ∀ i ∈ is, Ok s i) (s : σ) : m.Along Ok s is := by
  induction is generalizing s with
  | nil => exact True.intro
  | cons i is ih =>
    exact ⟨h s i List.mem_cons_self, ih (fun s j hj => h s j (List.mem_cons_of_mem _ hj)) _⟩

section

variable {m : Mealy σ ι ο} {is : List ι}

theorem run_schedule (pos : Nat → σ)
    (h : ∀ k i, is[k]? = some i → m.next (pos k) i = pos (k + 1)) :
    m.run (pos 0) is = pos is.length := by
  induction is generalizing pos with
  | nil => rfl
  | cons i is ih =>
    have hrest := ih (fun k => pos (k + 1)) fun k j hj => h (k + 1) j hj
    rw [run_cons, h 0 i rfl]
    exact hrest

theorem trace_schedule (pos : Nat → σ)
    (h : ∀ k i, is[k]? = some i → m.next (pos k) i = pos (k + 1)) :
    m.trace (pos 0) is = is.mapIdx fun k i => m.out (pos k) i := by
  induction is generalizing pos with
  | nil => rfl
  | cons i is ih =>
    have hrest := ih (fun k => pos (k + 1)) fun k j hj => h (k + 1) j hj
    rw [trace_cons, h 0 i rfl, List.mapIdx_cons]
    exact congrArg _ hrest

theorem along_schedule (pos : Nat → σ) {Ok : σ → ι → Prop}
    (h : ∀ k i, is[k]? = some i → m.next (pos k) i = pos (k + 1))
    (hok : ∀ k i, is[k]? = some i → Ok (pos k) i) : m.Along Ok (pos 0) is := by
  induction is generalizing pos with
  | nil => exact True.intro
  | cons i is ih =>
    have hrest := ih (fun k => pos (k + 1)) (fun k j hj => h (k + 1) j hj)
      fun k j hj => hok (k + 1) j hj
    rw [along_cons, h 0 i rfl]
    exact ⟨hok 0 i rfl, hrest⟩

end

end Mealy

/-- A machine that passes on at most one item for each item it takes. -/
abbrev Transducer (α β γ : Type) := Mealy α β (Option γ)

namespace Transducer

def emit (a : Transducer α β γ) (x : α) (bs : List β) : List γ := (a.trace x bs).filterMap id

@[simp] theorem emit_nil (a : Transducer α β γ) (x : α) : a.emit x [] = [] := rfl

theorem emit_cons (a : Transducer α β γ) (x : α) (b : β) (bs : List β) :
    a.emit x (b :: bs) = (a.out x b).toList ++ a.emit (a.next x b) bs := by
  cases h : a.out x b <;> simp [emit, h]

theorem emit_append (a : Transducer α β γ) (x : α) (bs cs : List β) :
    a.emit x (bs ++ cs) = a.emit x bs ++ a.emit (a.run x bs) cs := by
  simp only [emit, Mealy.trace_append, List.filterMap_append]

/-- Two transducers in a row: the second sees only what the first passes on. -/
def cascade (a : Transducer α β γ) (b : Transducer δ γ ε) : Transducer (α × δ) β ε where
  next x i := (a.next x.1 i, b.run x.2 (a.out x.1 i).toList)
  out x i := (a.out x.1 i).bind (b.out x.2)

theorem cascade_run (a : Transducer α β γ) (b : Transducer δ γ ε) (x : α) (y : δ) (is : List β) :
    (a.cascade b).run (x, y) is = (a.run x is, b.run y (a.emit x is)) := by
  induction is generalizing x y with
  | nil => rfl
  | cons i is ih =>
    simp only [Mealy.run_cons, cascade, emit_cons, Mealy.run_append] at ih ⊢
    exact ih _ _

theorem cascade_emit (a : Transducer α β γ) (b : Transducer δ γ ε) (x : α) (y : δ)
    (is : List β) : (a.cascade b).emit (x, y) is = b.emit y (a.emit x is) := by
  induction is generalizing x y with
  | nil => rfl
  | cons i is ih =>
    rw [emit_cons, emit_cons, emit_append]
    have hi := ih (a.next x i) (b.run y (a.out x i).toList)
    cases h : a.out x i with
    | none => simpa [cascade, h] using hi
    | some g =>
      simp only [h, Option.toList_some, Mealy.run_cons, Mealy.run_nil] at hi ⊢
      simp only [cascade, h, Option.bind_some, Option.toList_some, Mealy.run_cons,
        Mealy.run_nil] at hi ⊢
      rw [hi, emit_cons, emit_nil, List.append_nil]

theorem cascade_along (a : Transducer α β γ) (b : Transducer δ γ ε) (Ok : α → β → Prop) (x : α)
    (y : δ) (is : List β) :
    (a.cascade b).Along (fun z i => Ok z.1 i) (x, y) is ↔ a.Along Ok x is := by
  induction is generalizing x y with
  | nil => exact Iff.rfl
  | cons i is ih => exact and_congr_right fun _ => ih _ _

end Transducer

end Sync
