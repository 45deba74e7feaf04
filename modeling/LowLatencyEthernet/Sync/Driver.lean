import LowLatencyEthernet.Sync.Mealy

namespace Sync
set_option autoImplicit true

/-- A bench around a circuit: in every cycle it looks at `ω`, makes a choice `γ` and drives `ι`. -/
structure Driver (β γ ω ι : Type) where
  step : β → ω → γ → β
  put : β → γ → ι

namespace Driver

variable (d : Driver β γ ω ι) (m : Mealy σ ι ο) (see : σ → ω)

def inputs (b : β) (s : σ) : List γ → List ι
  | [] => []
  | c :: cs =>
    let b' := d.step b (see s) c
    d.put b' c :: inputs b' (m.next s (d.put b' c)) cs

variable {d m see} {b : β} {s : σ}

theorem inputs_cons (hb : d.step b (see s) c = b') :
    d.inputs m see b s (c :: cs) =
      d.put b' c :: d.inputs m see b' (m.next s (d.put b' c)) cs := by
  rw [inputs, hb]

theorem length_inputs (b : β) (s : σ) (cs : List γ) :
    (d.inputs m see b s cs).length = cs.length := by
  induction cs generalizing b s with
  | nil => rfl
  | cons c cs ih => exact congrArg Nat.succ (ih _ _)

theorem inputs_blind {P : β → Prop} (hP : ∀ b w c, P b → P (d.step b w c)) {Q : ι → Prop}
    (hQ : ∀ b c, P b → Q (d.put b c)) (h : P b) (s : σ) (cs : List γ) :
    ∀ i ∈ d.inputs m see b s cs, Q i := by
  induction cs generalizing b s with
  | nil => exact fun i hi => absurd hi List.not_mem_nil
  | cons c cs ih =>
    intro i hi
    have hstep := hP b (see s) c h
    rcases List.mem_cons.1 hi with rfl | hi
    · exact hQ _ _ hstep
    · exact ih hstep _ i hi

end Driver

end Sync
