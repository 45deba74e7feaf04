import LowLatencyEthernet.Sync.OneHot
import LowLatencyEthernet.Beat.MacFrames

namespace LowLatencyEthernet.MacRx
set_option autoImplicit true

open Sync

inductive Fsm where
  | invalid
  | head
  | data
deriving DecidableEq, Repr

def bit (s : State) : Fsm → Bool
  | .invalid => s.fsmInvalidQ
  | .head => s.fsmHeadQ
  | .data => s.fsmDataQ

theorem codes_iff : Codes bit s l ↔ s.fsmInvalidQ = decide (Fsm.invalid = l) ∧
    s.fsmHeadQ = decide (Fsm.head = l) ∧ s.fsmDataQ = decide (Fsm.data = l) := by
  constructor
  · exact fun h => ⟨h .invalid, h .head, h .data⟩
  · rintro ⟨hi, hh, hd⟩ j
    cases j with
    | invalid => exact hi
    | head => exact hh
    | data => exact hd

def Phase.fsm : Phase → Fsm
  | .invalid => .invalid
  | .head _ | .tci | .type => .head
  | .data _ _ => .data

theorem Sim.codes (h : Sim p s ph) : Codes bit s ph.fsm := by
  rw [codes_iff]
  cases ph with
  | invalid => exact h
  | head k => exact ⟨h.1, h.2.1, h.2.2.1⟩
  | tci => exact ⟨h.1, h.2.1, h.2.2.1⟩
  | type => exact ⟨h.1, h.2.1, h.2.2.1⟩
  | data first bypass => exact ⟨h.1, h.2.1, h.2.2.1⟩

/-- A start that is not cancelled comes between frames. -/
def Free (ph : Phase) (b : Beat) : Prop := b.start = true → b.cancel = false → ph = .invalid

theorem Sim.step_free (h : Sim p s ph) (hb : beat i = some b) (hok : Free ph b) :
    Sim p (MacRx.next p true s i) (ph.next p b) := by
  cases hc : b.cancel with
  | false => exact h.step hb fun hs => hok hs hc
  | true =>
    obtain ⟨hv, hca, _⟩ := beat_eq_some.1 hb
    rw [hc] at hca
    rw [next_cancel ph hc]
    refine ⟨?_, ?_, ?_⟩
    · simp [MacRx.next, fsmInvalidNext, hv, hca]
    · simp [MacRx.next, fsmHeadNext, hv, hca]
    · simp [MacRx.next, fsmDataNext, hv, hca]

theorem follows_free (p : Params) :
    Follows (machine p) (transducer p) beat port Free (Sim p) where
  stall h hb := h.stall hb
  stall_out _ hb := Sim.stall_out hb
  step h hb hok := h.step_free hb hok
  step_out h hb _ := h.out_eq hb

theorem cntQ_next (hi : s.fsmInvalidQ = false) (hv : i.validI = true) :
    (MacRx.next p true s i).cntQ = s.cntQ + 2 := by
  simp [MacRx.next, cntEn, cntNext, cntAdd, cntRst, hi, hv]

theorem Sim.cntQ_ne_zero (h : Sim p s ph) (hh : s.fsmHeadQ = true) : s.cntQ ≠ 0 := by
  cases ph with
  | invalid => exact absurd hh (by simp [h.2.1])
  | head k =>
    obtain ⟨_, _, _, h1, h10, hc, _⟩ := h
    rw [hc]
    intro h0
    have hnat := congrArg BitVec.toNat h0
    rw [BitVec.toNat_ofNat] at hnat
    change _ = 0 at hnat
    omega
  | tci =>
    obtain ⟨_, _, _, _, hc, _⟩ := h
    rw [hc]
    decide
  | type =>
    obtain ⟨_, _, _, _, hc, _⟩ := h
    rw [hc]
    decide
  | data first bypass => exact absurd hh (by simp [h.2.1])

/-- What a start has to do: the header state alone, the counter past the first beat. -/
structure Restarted (s : State) : Prop where
  head : Codes bit s .head
  cnt : s.cntQ = 2

theorem Phase.fsm_eq_invalid {ph : Phase} (h : ph.fsm = .invalid) : ph = .invalid := by
  cases ph with
  | invalid => rfl
  | _ => cases h

/-- Inside a header a start does not restart the counter, and inside the data it leaves one of the
other two bits set. -/
theorem Sim.not_restarted (h : Sim p s ph) (hne : ph ≠ .invalid) (hb : beat i = some b)
    (hc : b.cancel = false) : ¬ Restarted (MacRx.next p true s i) := by
  rintro ⟨hhead, hcnt⟩
  obtain ⟨hv, hca, _, _, ht, _⟩ := beat_eq_some.1 hb
  obtain ⟨hi, hh, hd⟩ := codes_iff.1 h.codes
  obtain ⟨hi', _, hd'⟩ := codes_iff.1 hhead
  cases hf : ph.fsm with
  | invalid => exact hne (Phase.fsm_eq_invalid hf)
  | head =>
    rw [hf] at hi hh
    have hinv : s.fsmInvalidQ = false := hi
    rw [cntQ_next hinv hv] at hcnt
    exact h.cntQ_ne_zero hh (by simpa using hcnt)
  | data =>
    rw [hf] at hi hd
    cases htb : b.term with
    | true => simp [MacRx.next, fsmInvalidNext, hv, ht, htb, hd] at hi'
    | false => simp [MacRx.next, fsmDataNext, hv, hca, hc, ht, htb, hd] at hd'

theorem Sim.restarted (h : Sim p s .invalid) (hb : beat i = some b) (hs : b.start = true)
    (hc : b.cancel = false) : Restarted (MacRx.next p true s i) := by
  have hnext : Phase.next p .invalid b = .head 1 := by simp [Phase.next, hs, hc]
  have hsim := h.step_free hb fun _ _ => rfl
  rw [hnext] at hsim
  obtain ⟨_, _, _, _, _, hcnt, _⟩ := id hsim
  exact ⟨hsim.codes, hcnt⟩

/-- Every start of the run restarts the receiver. -/
def Restarts (p : Params) (s : State) (is : List In) : Prop :=
  ∀ pre i post, is = pre ++ i :: post → i.validI = true → i.startI = true → i.cancelI = false →
    Restarted ((machine p).run s (pre ++ [i]))

/-- The receiver finds every frame: exactly one state bit is set in every cycle, a start leads to
the header state with the counter restarted, and the well formed frame that begins with it is
answered as after reset. -/
structure Resyncs (p : Params) (s : State) (is : List In) : Prop where
  oneHot : ∀ pre post, is = pre ++ post → OneHot bit ((machine p).run s pre)
  start : Restarts p s is
  frame : ∀ pre cycles post, is = pre ++ cycles ++ post → IsFrame p (cycles.filterMap beat) →
    (∀ b, (cycles.filterMap beat)[0]? = some b → b.cancel = false) →
    (∀ s₁ i₁, answers (machine p) beat port ((machine p).run s pre) cycles =
      answers (machine p) beat port (reset p s₁ i₁) cycles) ∧
      Codes bit ((machine p).run s (pre ++ cycles)) .invalid

theorem Restarts.tail (h : Restarts p s (i :: is)) :
    Restarts p (MacRx.next p true s i) is := by
  rintro pre j post rfl hv hs hc
  exact h (i :: pre) j post rfl hv hs hc

theorem Sim.along_free {is : List In} (h : Sim p s ph) (hr : Restarts p s is) :
    (transducer p).Along Free ph (is.filterMap beat) := by
  induction is generalizing s ph with
  | nil => exact True.intro
  | cons i is ih =>
    cases hb : beat i with
    | none =>
      rw [List.filterMap_cons_none hb]
      exact ih (h.stall hb) hr.tail
    | some b =>
      have hok : Free ph b := by
        intro hs hc
        by_contra hne
        obtain ⟨hv, hca, hst, _⟩ := beat_eq_some.1 hb
        exact h.not_restarted hne hb hc (hr [] i is rfl hv (hst.trans hs) (hca.trans hc))
      rw [List.filterMap_cons_some hb]
      exact ⟨hok, ih (h.step_free hb hok) hr.tail⟩

theorem Sim.run_free (h : Sim p s ph)
    (hal : (transducer p).Along Free ph ((pre ++ post).filterMap beat)) :
    Sim p ((machine p).run s pre) ((transducer p).run ph (pre.filterMap beat)) ∧
      (transducer p).Along Free ((transducer p).run ph (pre.filterMap beat))
        (post.filterMap beat) := by
  rw [List.filterMap_append, Mealy.along_append] at hal
  exact ⟨(follows_free p).run h hal.1, hal.2⟩

theorem Sim.restarts (h : Sim p s ph) (hal : (transducer p).Along Free ph (is.filterMap beat)) :
    Restarts p s is := by
  rintro pre i post rfl hv hs hc
  obtain ⟨hsim, hrest⟩ := h.run_free hal
  obtain ⟨b, hb⟩ : ∃ b, beat i = some b := ⟨_, if_pos hv⟩
  obtain ⟨_, hca, hst, _⟩ := beat_eq_some.1 hb
  rw [List.filterMap_cons_some hb] at hrest
  have hbs : b.start = true := hst.symm.trans hs
  have hbc : b.cancel = false := hca.symm.trans hc
  rw [hrest.1 hbs hbc] at hsim
  rw [Mealy.run_append]
  exact hsim.restarted hb hbs hbc

theorem Sim.frame (h : Sim p s .invalid) (hf : IsFrame p (cycles.filterMap beat)) :
    answers (machine p) beat port s cycles = expected p (cycles.filterMap beat) ∧
      Codes bit ((machine p).run s cycles) .invalid := by
  have hans := (follows p).answers_eq h hf.along
  have hrun := (follows p).run h hf.along
  rw [hf.run_eq] at hrun
  rw [hf.trace_eq] at hans
  exact ⟨hans, hrun.codes⟩

/-- The receiver finds every frame of a run exactly if no start comes inside a frame. -/
theorem resyncs_iff (p : Params) (s₀ : State) (i₀ : In) (is : List In) :
    Resyncs p (reset p s₀ i₀) is ↔
      (transducer p).Along Free .invalid (is.filterMap beat) := by
  have h := sim_reset p s₀ i₀
  constructor
  · exact fun hr => h.along_free hr.start
  · intro hal
    refine ⟨?_, h.restarts hal, ?_⟩
    · rintro pre post rfl
      exact ⟨_, (h.run_free hal).1.codes⟩
    · rintro pre cycles post rfl hf hc
      rw [List.append_assoc] at hal
      obtain ⟨hsim, hrest⟩ := h.run_free hal
      obtain ⟨b, bs, hbs⟩ := List.exists_cons_of_ne_nil hf.nonempty
      have hb : (cycles.filterMap beat)[0]? = some b := by rw [hbs]; rfl
      rw [List.filterMap_append, hbs] at hrest
      rw [hrest.1 ((hf.start 0 b hb).2 rfl) (hc b hb)] at hsim
      obtain ⟨hans, hrun⟩ := hsim.frame hf
      refine ⟨fun s₁ i₁ => hans.trans ((sim_reset p s₁ i₁).frame hf).1.symm, ?_⟩
      rw [Mealy.run_append]
      exact hrun

def cycle (start : Bool) : In := ⟨false, true, 0, start, false, 2⟩

def restart : List In := cycle true :: List.replicate 10 (cycle false) ++ [cycle true]

theorem start_in_data : ¬ Resyncs ⟨false⟩ (reset ⟨false⟩ default default) restart := by
  intro h
  have hone := h.oneHot restart [] rfl
  have hhead :
      bit ((machine ⟨false⟩).run (reset ⟨false⟩ default default) restart) .head = true := by
    decide +kernel
  have hdata :
      bit ((machine ⟨false⟩).run (reset ⟨false⟩ default default) restart) .data = true := by
    decide +kernel
  exact absurd (hone.eq hhead hdata) (by decide)

end LowLatencyEthernet.MacRx
