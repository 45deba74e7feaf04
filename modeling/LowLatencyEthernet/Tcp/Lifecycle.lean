import LowLatencyEthernet.Sync.OneHot
import LowLatencyEthernet.Rtl.TcpEntry

namespace LowLatencyEthernet.TcpEntry
set_option autoImplicit true

open Sync

inductive Life where
  | invalid
  | synEmit
  | synSent
  | estEmit
  | est
  | finWait1Emit
  | finWait1
  | finWait2
  | timeWaitEmit
  | timeWait
deriving DecidableEq, Repr

def received (i : In) (idx : Nat) : Bool := i.recVI && i.recFlagI.getLsbD idx

namespace Life

def exits : Life → In → Bool
  | .invalid, i => i.initVI && !i.cancelVI
  | .synEmit, i => i.sentVI
  | .synSent, i => received i synIdx && received i ackIdx
  | .estEmit, i => i.sentVI
  | .est, i => i.closeVI
  | .finWait1Emit, i => i.sentVI
  | .finWait1, i => received i ackIdx
  | .finWait2, i => received i finIdx
  | .timeWaitEmit, i => i.sentVI
  | .timeWait, _ => timeoutWait

def after : Life → Life
  | .invalid => .synEmit
  | .synEmit => .synSent
  | .synSent => .estEmit
  | .estEmit => .est
  | .est => .finWait1Emit
  | .finWait1Emit => .finWait1
  | .finWait1 => .finWait2
  | .finWait2 => .timeWaitEmit
  | .timeWaitEmit => .timeWait
  | .timeWait => .invalid

/-- A state lasts until its own event. -/
def step (l : Life) (i : In) : Life := if l.exits i then l.after else l

/-- The steps the circuit makes as well: the states before the connection last one cycle, and the
closing states last for ever. -/
def Kept : Life → In → Prop
  | .invalid, i => i.initVI = true → i.cancelVI = false
  | .synEmit, i => i.sentVI = true
  | .synSent, i => received i synIdx = true ∧ received i ackIdx = true
  | .estEmit, i => i.sentVI = true
  | .est, _ => False
  | .finWait1Emit, i => i.sentVI = false
  | .finWait1, i => received i ackIdx = false
  | .finWait2, i => received i finIdx = false
  | .timeWaitEmit, i => i.sentVI = false
  | .timeWait, _ => False

end Life

def bit (s : State) : Life → Bool
  | .invalid => s.invalidQ
  | .synEmit => s.synEmitQ
  | .synSent => s.synSentQ
  | .estEmit => s.estEmitQ
  | .est => s.estQ
  | .finWait1Emit => s.finWait1EmitQ
  | .finWait1 => s.finWait1Q
  | .finWait2 => s.finWait2Q
  | .timeWaitEmit => s.timeWaitEmitQ
  | .timeWait => s.timeWaitQ

theorem codes_iff : Codes bit s l ↔
    s.invalidQ = decide (l = .invalid) ∧ s.synEmitQ = decide (l = .synEmit) ∧
      s.synSentQ = decide (l = .synSent) ∧ s.estEmitQ = decide (l = .estEmit) ∧
      s.estQ = decide (l = .est) ∧ s.finWait1EmitQ = decide (l = .finWait1Emit) ∧
      s.finWait1Q = decide (l = .finWait1) ∧ s.finWait2Q = decide (l = .finWait2) ∧
      s.timeWaitEmitQ = decide (l = .timeWaitEmit) ∧ s.timeWaitQ = decide (l = .timeWait) := by
  simp only [eq_comm (a := l)]
  constructor
  · intro h
    exact ⟨h .invalid, h .synEmit, h .synSent, h .estEmit, h .est, h .finWait1Emit, h .finWait1,
      h .finWait2, h .timeWaitEmit, h .timeWait⟩
  · rintro ⟨h₁, h₂, h₃, h₄, h₅, h₆, h₇, h₈, h₉, h₁₀⟩ j
    cases j <;> assumption

/-- The bits of the first five states after a step, the others hold still. -/
theorem codes_next_iff : Codes bit (next true s i) l ↔
    invalidNext s i = decide (l = .invalid) ∧ synEmitNext s i = decide (l = .synEmit) ∧
      synSentNext s i = decide (l = .synSent) ∧ estEmitNext s i = decide (l = .estEmit) ∧
      estNext s i = decide (l = .est) ∧ s.finWait1EmitQ = decide (l = .finWait1Emit) ∧
      s.finWait1Q = decide (l = .finWait1) ∧ s.finWait2Q = decide (l = .finWait2) ∧
      s.timeWaitEmitQ = decide (l = .timeWaitEmit) ∧ s.timeWaitQ = decide (l = .timeWait) :=
  codes_iff

theorem codes_step (h : Codes bit s l) : Codes bit (next true s i) (l.step i) ↔ l.Kept i := by
  obtain ⟨h₁, h₂, h₃, h₄, h₅, h₆, h₇, h₈, h₉, h₁₀⟩ := codes_iff.1 h
  rw [codes_next_iff, h₆, h₇, h₈, h₉, h₁₀, invalidNext, synEmitNext, synSentNext, estEmitNext,
    estNext, h₁, h₂, h₃, h₄, h₁₀]
  cases l with
  | invalid =>
    cases hi : i.initVI <;> cases hc : i.cancelVI <;>
      simp [Life.step, Life.exits, Life.after, Life.Kept, cancelV, hi, hc]
  | synEmit => cases hs : i.sentVI <;> simp [Life.step, Life.exits, Life.after, Life.Kept, hs]
  | estEmit => cases hs : i.sentVI <;> simp [Life.step, Life.exits, Life.after, Life.Kept, hs]
  | synSent =>
    have hrec : (i.recVI && i.recFlagI.getLsbD synIdx && i.recFlagI.getLsbD ackIdx) =
        (received i synIdx && received i ackIdx) := by
      cases hv : i.recVI <;> simp [received, hv]
    rw [hrec]
    cases hs : received i synIdx <;> cases ha : received i ackIdx <;>
      simp [Life.step, Life.exits, Life.after, Life.Kept, hs, ha]
  | est => cases hc : i.closeVI <;> simp [Life.step, Life.exits, Life.after, Life.Kept, hc]
  | finWait1Emit => cases hs : i.sentVI <;> simp [Life.step, Life.exits, Life.after, Life.Kept, hs]
  | timeWaitEmit => cases hs : i.sentVI <;> simp [Life.step, Life.exits, Life.after, Life.Kept, hs]
  | finWait1 =>
    cases ha : received i ackIdx <;> simp [Life.step, Life.exits, Life.after, Life.Kept, ha]
  | finWait2 =>
    cases hf : received i finIdx <;> simp [Life.step, Life.exits, Life.after, Life.Kept, hf]
  | timeWait => simp [Life.step, Life.exits, Life.after, Life.Kept, timeoutWait]

theorem life_iff (h : Codes bit s l) (is : List In) :
    Tracks machine bit Life.step s l is ↔ Mealy.Along ⟨Life.step, fun _ _ => ()⟩ Life.Kept l is :=
  tracks_iff codes_step h

def Life.opening : Life → Bool
  | .invalid | .synEmit | .synSent | .estEmit | .est => true
  | _ => false

structure Dead (s : State) : Prop where
  opening : ∀ l : Life, l.opening = true → bit s l = false
  timeWait : s.timeWaitQ = false

theorem dead_reset (i : In) (h : s.timeWaitQ = false) : Dead (reset s i) where
  opening l hl := by cases l <;> first | rfl | cases hl
  timeWait := h

theorem Dead.step (h : Dead s) : Dead (next true s i) where
  opening l hl := by
    have hinv : s.invalidQ = false := h.opening .invalid rfl
    have hsyn : s.synEmitQ = false := h.opening .synEmit rfl
    have hsent : s.synSentQ = false := h.opening .synSent rfl
    have hemit : s.estEmitQ = false := h.opening .estEmit rfl
    cases l with
    | invalid => simp [bit, next, invalidNext, hinv, h.timeWait]
    | synEmit => simp [bit, next, synEmitNext, hinv]
    | synSent => simp [bit, next, synSentNext, hsyn]
    | estEmit => simp [bit, next, estEmitNext, hsent]
    | est => simp [bit, next, estNext, hemit]
    | _ => cases hl
  timeWait := h.timeWait

theorem Dead.run {is : List In} (h : Dead s) : Dead (machine.run s is) := by
  induction is generalizing s with
  | nil => exact h
  | cons i is ih => exact ih h.step

theorem timeWaitQ_run (s : State) (is : List In) : (machine.run s is).timeWaitQ = s.timeWaitQ := by
  induction is generalizing s with
  | nil => rfl
  | cons i is ih => exact ih _

/-- After a reset either nothing happens or the register of the last state, which nothing writes,
has held a one from the start. -/
theorem not_codes_opening (s₀ : State) (i₀ : In) (is : List In) (hl : l.opening = true) :
    ¬ Codes bit (machine.run (reset s₀ i₀) is) l := by
  intro h
  cases hw : s₀.timeWaitQ with
  | false =>
    have hdead : Dead (machine.run (reset s₀ i₀) is) := (dead_reset i₀ hw).run
    exact Bool.false_ne_true ((hdead.opening l hl).symm.trans h.set)
  | true =>
    have hstuck : (machine.run (reset s₀ i₀) is).timeWaitQ = true :=
      (timeWaitQ_run _ is).trans hw
    have hclear : (machine.run (reset s₀ i₀) is).timeWaitQ = false := by
      apply h.clear (j := .timeWait)
      rintro rfl
      cases hl
    exact Bool.false_ne_true (hclear.symm.trans hstuck)

/-- A reset leaves no state to start from, so no run follows the life of a socket, and none is ever
in one of its states up to the established connection. -/
theorem never_follows_life (s₀ : State) (i₀ : In) (is : List In) :
    ¬ Tracks machine bit Life.step (reset s₀ i₀) .invalid is ∧
      ∀ l : Life, l.opening = true → ¬ Codes bit (machine.run (reset s₀ i₀) is) l :=
  ⟨fun h => not_codes_opening s₀ i₀ [] rfl h.codes, fun _ hl => not_codes_opening s₀ i₀ is hl⟩

def openRequest : In := { (default : In) with initVI := true }

theorem open_request_lost :
    ¬ Tracks machine bit Life.step (reset default default) .invalid [openRequest] :=
  fun h => not_codes_opening default default [] rfl h.codes

end LowLatencyEthernet.TcpEntry
