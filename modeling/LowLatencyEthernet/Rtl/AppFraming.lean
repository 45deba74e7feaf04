import LowLatencyEthernet.Rtl.EthRx

namespace LowLatencyEthernet
set_option autoImplicit true

open Sync

namespace UdpRx

/-- Exactly one bit of the FSM is set. -/
def OneHot (s : State) : Prop :=
  (s.fsmIdleQ = true ∧ s.fsmHeadQ = false ∧ s.fsmDataQ = false) ∨
    (s.fsmIdleQ = false ∧ s.fsmHeadQ = true ∧ s.fsmDataQ = false) ∨
    (s.fsmIdleQ = false ∧ s.fsmHeadQ = false ∧ s.fsmDataQ = true)

/-- A valid output has gone out and the data phase is not over. -/
def opened (s : State) : Bool := s.fsmDataQ && !s.bypassVQ && !s.fsmHead2q

theorem oneHot_reset (p : Params) (s : State) (i : In) : OneHot (next p false s i) :=
  Or.inl ⟨rfl, rfl, rfl⟩

theorem OneHot.step (h : OneHot s) (p : Params) (i : In) : OneHot (next p true s i) := by
  cases hv : i.validI with
  | false => simpa [OneHot, next, hv] using h
  | true =>
    rcases h with ⟨hi, hh, hd⟩ | ⟨hi, hh, hd⟩ | ⟨hi, hh, hd⟩
    · cases hc : i.cancelI <;> cases hs : i.startI <;>
        simp [OneHot, next, fsmIdleNext, fsmHeadNext, fsmDataNext, hv, hi, hh, hd, hc, hs]
    · cases hc : i.cancelI <;> cases he : endHeadV s i <;>
        simp [OneHot, next, fsmIdleNext, fsmHeadNext, fsmDataNext, hv, hi, hh, hd, hc, he]
    · cases hc : i.cancelI <;> cases ht : i.termI <;>
        simp [OneHot, next, fsmIdleNext, fsmHeadNext, fsmDataNext, hv, hi, hh, hd, hc, ht]

theorem validO_eq_true : validO s i = true ↔
    s.fsmDataQ = true ∧ i.validI = true ∧ s.bypassVQ = false := by
  simp [validO, and_assoc]

theorem startO_eq (hv : validO s i = true) : startO s = !opened s := by
  obtain ⟨hd, _, hb⟩ := validO_eq_true.1 hv
  simp [startO, opened, hd, hb]

theorem OneHot.opened_valid (h : OneHot s) (p : Params) (hv : validO s i = true) :
    opened (next p true s i) = !(i.termI || i.cancelI) := by
  obtain ⟨hd, hvi, hb⟩ := validO_eq_true.1 hv
  rcases h with ⟨hi, hh, hd'⟩ | ⟨hi, hh, hd'⟩ | ⟨hi, hh, hd'⟩
  · rw [hd'] at hd
    cases hd
  · rw [hd'] at hd
    cases hd
  · cases hc : i.cancelI <;> cases ht : i.termI <;>
      simp [opened, next, fsmDataNext, hvi, hi, hh, hd, hb, hc, ht]

theorem OneHot.opened_silent (h : OneHot s) (p : Params) (hv : validO s i = false) :
    opened (next p true s i) = opened s := by
  cases hvi : i.validI with
  | false =>
    rcases h with ⟨hi, hh, hd⟩ | ⟨hi, hh, hd⟩ | ⟨hi, hh, hd⟩ <;>
      simp [opened, next, hvi, hi, hh, hd]
  | true =>
    rcases h with ⟨hi, hh, hd⟩ | ⟨hi, hh, hd⟩ | ⟨hi, hh, hd⟩
    · simp [opened, next, fsmDataNext, hvi, hh, hd]
    · simp [opened, next, hvi, hh, hd]
    · have hb : s.bypassVQ = true := by simpa [validO, hvi, hd] using hv
      simp [opened, next, hi, hb]

end UdpRx

namespace EthRx

def appBeats (p : Params) (s : State) (is : List In) : List Out :=
  ((machine p).trace s is).filter Out.appValidO

def starts (os : List Out) : List Bool := os.map Out.appStartO

def ends (os : List Out) : List Bool := os.map fun o => o.appTermO || o.appCancelO

theorem starts_run (p : Params) (is : List In) (hs : UdpRx.OneHot s.mUdpRx) :
    starts (appBeats p s is) =
      ((!UdpRx.opened s.mUdpRx) :: ends (appBeats p s is)).take (appBeats p s is).length := by
  induction is generalizing s with
  | nil => rfl
  | cons i is ih =>
    have hrest := ih (s := next p true s i) (hs.step (udpParams p) (udpIn s i))
    cases hv : (out s i).appValidO with
    | false =>
      have hskip : appBeats p s (i :: is) = appBeats p (next p true s i) is :=
        List.filter_cons_of_neg (Bool.eq_false_iff.1 hv)
      have hopen : UdpRx.opened (next p true s i).mUdpRx = UdpRx.opened s.mUdpRx :=
        hs.opened_silent (udpParams p) hv
      rw [hskip, ← hopen]
      exact hrest
    | true =>
      have htake : appBeats p s (i :: is) = out s i :: appBeats p (next p true s i) is :=
        List.filter_cons_of_pos hv
      have hstart : (out s i).appStartO = !UdpRx.opened s.mUdpRx := UdpRx.startO_eq hv
      have hopen : UdpRx.opened (next p true s i).mUdpRx =
          !((out s i).appTermO || (out s i).appCancelO) :=
        hs.opened_valid (udpParams p) hv
      rw [hopen, Bool.not_not] at hrest
      rw [htake, List.length_cons, List.take_succ_cons, ← hstart]
      exact congrArg ((out s i).appStartO :: ·) hrest

/-- Whatever comes in after reset, the output starts on its first beat and on each beat after a
term or a cancel, and nowhere else. -/
theorem app_framed (p : Params) (s₀ : State) (i₀ : In) (is : List In) :
    let os := appBeats p (reset p s₀ i₀) is
    starts os = (true :: ends os).take os.length :=
  starts_run p is (UdpRx.oneHot_reset _ _ _)

end EthRx

end LowLatencyEthernet
