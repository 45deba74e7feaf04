import LowLatencyEthernet.Sync.Follows
import LowLatencyEthernet.Rtl.EthRx

namespace LowLatencyEthernet
set_option autoImplicit true

open Sync

/-- What the MAC hands to the IPv4 layer in a valid cycle. -/
structure Ipv4Rx.Beat where
  start : Bool
  data : Word
  len : BitVec 2
deriving DecidableEq, Repr

namespace MacRx

/-- What the MAC takes in a valid cycle. -/
structure Beat where
  cancel : Bool
  start : Bool
  data : Word
  term : Bool
  len : BitVec 2
deriving DecidableEq, Repr

def beat (i : In) : Option Beat :=
  if i.validI then some ⟨i.cancelI, i.startI, i.dataI, i.termI, i.lenI⟩ else none

def port (o : Out) : Option Ipv4Rx.Beat :=
  if o.validO then some ⟨o.startO, o.dataO, o.lenO⟩ else none

/-- Where a receiver is in a frame. `head k` has seen `k` beats and no tag, `tci` waits for the
rest of a tag and `type` for the type that follows it. -/
inductive Phase where
  | invalid
  | head (k : Nat)
  | tci
  | type
  | data (first bypass : Bool)
deriving DecidableEq, Repr

namespace Phase

def next (p : Params) : Phase → Beat → Phase
  | .invalid, b => if b.start && !b.cancel then .head 1 else .invalid
  | .head k, b =>
    if b.cancel then .invalid
    else if k = 10 then
      if p.vlanTag && b.data == tpic then .tci else .data true (b.data != ipv4)
    else .head (k + 1)
  | .tci, b => if b.cancel then .invalid else .type
  | .type, b => if b.cancel then .invalid else .data true (b.data != ipv4)
  | .data _ bypass, b => if b.cancel || b.term then .invalid else .data false bypass

def out : Phase → Beat → Option Ipv4Rx.Beat
  | .data first false, b => some ⟨first, b.data, if b.term then b.len else 2⟩
  | _, _ => none

def startO : Phase → Bool
  | .data first _ => first
  | _ => false

end Phase

def transducer (p : Params) : Transducer Phase Beat Ipv4Rx.Beat := ⟨Phase.next p, Phase.out⟩

/-- A start is only taken between frames. -/
def StartOk (ph : Phase) (b : Beat) : Prop := b.start = true → ph = .invalid

/-- The registers of the circuit in each phase; the others do not matter there. -/
def Sim (p : Params) (s : State) : Phase → Prop
  | .invalid => s.fsmInvalidQ = true ∧ s.fsmHeadQ = false ∧ s.fsmDataQ = false
  | .head k =>
    s.fsmInvalidQ = false ∧ s.fsmHeadQ = true ∧ s.fsmDataQ = false ∧ 1 ≤ k ∧ k ≤ 10 ∧
      s.cntQ = BitVec.ofNat 5 (2 * k) ∧ s.typeLsbVQ = 0 ∧ s.bypassVQ = false
  | .tci =>
    s.fsmInvalidQ = false ∧ s.fsmHeadQ = true ∧ s.fsmDataQ = false ∧ p.vlanTag = true ∧
      s.cntQ = 22 ∧ s.typeLsbVQ = 2 ∧ s.bypassVQ = false
  | .type =>
    s.fsmInvalidQ = false ∧ s.fsmHeadQ = true ∧ s.fsmDataQ = false ∧ p.vlanTag = true ∧
      s.cntQ = 24 ∧ s.typeLsbVQ = 1 ∧ s.bypassVQ = false
  | .data first bypass =>
    s.fsmInvalidQ = false ∧ s.fsmHeadQ = false ∧ s.fsmDataQ = true ∧
      s.fsmHead2q = first ∧ s.bypassVQ = bypass

theorem beat_eq_none : beat i = none ↔ i.validI = false := by
  cases h : i.validI <;> simp [beat, h]

theorem beat_eq_some : beat i = some b ↔
    i.validI = true ∧ i.cancelI = b.cancel ∧ i.startI = b.start ∧ i.dataI = b.data ∧
      i.termI = b.term ∧ i.lenI = b.len := by
  cases b
  cases h : i.validI <;> simp [beat, h]

theorem Sim.startO (h : Sim p s ph) : startO s = ph.startO := by
  cases ph <;> simp_all [Sim, MacRx.startO, Phase.startO]

theorem Sim.stall (h : Sim p s ph) (hb : beat i = none) : Sim p (next p true s i) ph := by
  rw [beat_eq_none] at hb
  cases ph <;>
    simp_all [Sim, next, cntEn, bypassVNext, typeErrV]

theorem Sim.stall_out (hb : beat i = none) : port (out s i) = none := by
  rw [beat_eq_none] at hb
  simp [port, out, validO, dataLiteV, hb]

theorem Sim.out_eq (h : Sim p s ph) (hb : beat i = some b) : port (out s i) = ph.out b := by
  obtain ⟨hv, _, _, hd, ht, hl⟩ := beat_eq_some.1 hb
  cases ph with
  | data first bypass =>
    obtain ⟨_, _, hdata, hf, hbp⟩ := h
    cases bypass <;>
      simp [port, out, validO, dataLiteV, MacRx.startO, lenO, Phase.out, hv, hdata, hf, hbp, hd,
        ht, hl]
  | invalid => simp [port, out, validO, Phase.out, h.2.2]
  | head => simp [port, out, validO, Phase.out, h.2.2.1]
  | tci => simp [port, out, validO, Phase.out, h.2.2.1]
  | type => simp [port, out, validO, Phase.out, h.2.2.1]

theorem vlanIdxV_head (hc : s.cntQ = BitVec.ofNat 5 (2 * k)) (hk : k ≤ 10) :
    vlanIdxV s = decide (k = 10) := by
  have h : k = 0 ∨ k = 1 ∨ k = 2 ∨ k = 3 ∨ k = 4 ∨ k = 5 ∨ k = 6 ∨ k = 7 ∨ k = 8 ∨ k = 9 ∨
      k = 10 := by omega
  rcases h with rfl | rfl | rfl | rfl | rfl | rfl | rfl | rfl | rfl | rfl | rfl <;>
    simp [vlanIdxV, hc, typeIdx]

theorem Sim.step_head (h : Sim p s (.head k)) (hb : beat i = some b)
    (hok : StartOk (.head k) b) :
    Sim p (MacRx.next p true s i) (Phase.next p (.head k) b) := by
  obtain ⟨hi, hh, hdt, h1, hk, hc, hl, hbp⟩ := h
  obtain ⟨hv, hca, hst, hd, ht, _⟩ := beat_eq_some.1 hb
  have hns : b.start = false := by
    cases hs : b.start with
    | false => rfl
    | true => cases hok hs
  have hidx := vlanIdxV_head hc hk
  cases hcb : b.cancel with
  | true =>
    simp [Phase.next, Sim, MacRx.next, fsmInvalidNext, fsmHeadNext, fsmDataNext, hv, hca, hcb]
  | false =>
    by_cases he : k = 10
    · subst he
      cases hp : p.vlanTag <;> cases htp : b.data == tpic <;>
        simp_all [Phase.next, Sim, MacRx.next, fsmInvalidNext, fsmHeadNext, fsmDataNext, typeV,
          vlanV, vlanIdxV, tpicV, vlanId, typeLsbVNext, cntEn, cntNext, cntAdd, cntRst,
          bypassVNext, typeErrV, typeId, typeIdx]
    · have hix : vlanIdxV s = false := by simpa [he] using hidx
      have htv : typeV p s i = false := by
        have hix' : (s.cntQ == typeIdx) = false := hix
        cases hp : p.vlanTag <;> simp [typeV, vlanV, hp, hix, hix', hl]
      have htl : typeLsbVNext s i = 0 := by simp [typeLsbVNext, vlanV, hix, hl]
      have hadd : BitVec.ofNat 5 (2 * k) + 2#5 = BitVec.ofNat 5 (2 * (k + 1)) :=
        (BitVec.ofNat_add (2 * k) 2).symm
      have hk' : k + 1 ≤ 10 := by omega
      simp [Phase.next, Sim, MacRx.next, fsmInvalidNext, fsmHeadNext, fsmDataNext, cntEn, cntNext,
        cntAdd, cntRst, bypassVNext, typeErrV, htv, htl, hc, hadd, hi, hh, hdt, hv, hca, hcb, hst,
        hns, hbp, he, hk']

theorem Sim.step (h : Sim p s ph) (hb : beat i = some b) (hok : StartOk ph b) :
    Sim p (MacRx.next p true s i) (ph.next p b) := by
  obtain ⟨hv, hca, hst, hd, ht, _⟩ := beat_eq_some.1 hb
  cases ph with
  | head k => exact h.step_head hb hok
  | invalid =>
    cases hs : b.start <;> cases hcb : b.cancel <;>
      simp_all [Phase.next, Sim, MacRx.next, fsmInvalidNext, fsmHeadNext, fsmDataNext,
        typeLsbVNext, cntEn, cntNext, cntAdd, cntRst, bypassVNext]
  | tci =>
    cases hs : b.start with
    | true => cases hok hs
    | false =>
      cases hcb : b.cancel <;>
        simp_all [Phase.next, Sim, MacRx.next, fsmInvalidNext, fsmHeadNext, fsmDataNext, typeV,
          vlanV, vlanIdxV, typeLsbVNext, cntEn, cntNext, cntAdd, cntRst, bypassVNext, typeErrV,
          typeIdx]
  | type =>
    cases hs : b.start with
    | true => cases hok hs
    | false =>
      cases hcb : b.cancel <;>
        simp_all [Phase.next, Sim, MacRx.next, fsmInvalidNext, fsmHeadNext, fsmDataNext, typeV,
          vlanV, vlanIdxV, typeLsbVNext, cntEn, cntNext, cntAdd, cntRst, bypassVNext, typeErrV,
          typeId]
  | data first bypass =>
    cases hs : b.start with
    | true => cases hok hs
    | false =>
      cases hcb : b.cancel <;> cases htb : b.term <;>
        simp_all [Phase.next, Sim, MacRx.next, fsmInvalidNext, fsmHeadNext, fsmDataNext,
          bypassVNext, typeErrV]

theorem follows (p : Params) :
    Follows (machine p) (transducer p) beat port StartOk (Sim p) where
  stall h hb := h.stall hb
  stall_out _ hb := Sim.stall_out hb
  step h hb hok := h.step hb hok
  step_out h hb _ := h.out_eq hb

theorem sim_reset (p : Params) (s : State) (i : In) : Sim p (reset p s i) .invalid :=
  ⟨rfl, rfl, rfl⟩

end MacRx

end LowLatencyEthernet
