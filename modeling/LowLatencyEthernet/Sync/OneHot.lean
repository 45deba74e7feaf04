import LowLatencyEthernet.Sync.Mealy

namespace Sync
set_option autoImplicit true

/-! Circuits that keep one state bit for each state of an automaton. -/

variable {σ ι ο κ : Type} [DecidableEq κ] {bit : σ → κ → Bool}

/-- The state bit of `k` is set and no other. -/
def Codes (bit : σ → κ → Bool) (s : σ) (k : κ) : Prop := ∀ j, bit s j = decide (j = k)

/-- Exactly one state bit is set. -/
def OneHot (bit : σ → κ → Bool) (s : σ) : Prop := ∃ k, Codes bit s k

theorem Codes.oneHot (h : Codes bit s k) : OneHot bit s := ⟨k, h⟩

theorem Codes.set (h : Codes bit s k) : bit s k = true := by
  rw [h k, decide_eq_true rfl]

theorem Codes.clear (h : Codes bit s k) (hj : j ≠ k) : bit s j = false := by
  rw [h j, decide_eq_false hj]

theorem OneHot.eq (h : OneHot bit s) (hj : bit s j = true) (hk : bit s k = true) : j = k := by
  obtain ⟨l, hl⟩ := h
  rw [hl] at hj hk
  rw [of_decide_eq_true hj, of_decide_eq_true hk]

/-- From `s` on the state bits are those of the automaton `step`, which starts in `k`. -/
def Tracks (m : Mealy σ ι ο) (bit : σ → κ → Bool) (step : κ → ι → κ) (s : σ) (k : κ) :
    List ι → Prop
  | [] => Codes bit s k
  | i :: is => Codes bit s k ∧ Tracks m bit step (m.next s i) (step k i) is

theorem Tracks.codes {m : Mealy σ ι ο} {step : κ → ι → κ} {is : List ι}
    (h : Tracks m bit step s k is) : Codes bit s k := by
  cases is with
  | nil => exact h
  | cons i is => exact h.1

/-- When one step is tracked under the guard `Kept`, a run is tracked as long as the guard holds. -/
theorem tracks_iff {m : Mealy σ ι ο} {step : κ → ι → κ} {Kept : κ → ι → Prop} {is : List ι}
    (hstep : ∀ {s k i}, Codes bit s k → (Codes bit (m.next s i) (step k i) ↔ Kept k i))
    (h : Codes bit s k) :
    Tracks m bit step s k is ↔ Mealy.Along ⟨step, fun _ _ => ()⟩ Kept k is := by
  induction is generalizing s k with
  | nil => exact ⟨fun _ => True.intro, fun _ => h⟩
  | cons i is ih =>
    constructor
    · intro ht
      have hnext : Codes bit (m.next s i) (step k i) := ht.2.codes
      exact ⟨(hstep h).1 hnext, (ih hnext).1 ht.2⟩
    · intro hal
      have hnext : Codes bit (m.next s i) (step k i) := (hstep h).2 hal.1
      exact ⟨h, (ih hnext).2 hal.2⟩

end Sync
