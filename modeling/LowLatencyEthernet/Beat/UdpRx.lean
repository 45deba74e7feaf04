import LowLatencyEthernet.Beat.Ipv4Rx

namespace LowLatencyEthernet
set_option autoImplicit true

open Sync

/-- What the application gets in a valid cycle. -/
structure AppBeat where
  start : Bool
  term : Bool
  termLen : BitVec 2
  data : Word
deriving DecidableEq, Repr

namespace UdpRx

def beat (i : In) : Option Beat :=
  if i.validI then some ⟨i.startI, i.termI, i.termLenI, i.dataI, i.ipCsErrI⟩ else none

def port (o : Out) : Option AppBeat :=
  if o.validO then some ⟨o.startO, o.termO, o.termLenO, o.dataO⟩ else none

/-- `head k` has seen `k` of the four beats of a header. -/
inductive Phase where
  | idle
  | head (k : Nat) (drop : Bool)
  | data (drop first : Bool)
deriving DecidableEq, Repr

namespace Phase

def next (p : Params) : Phase → Beat → Phase
  | .idle, b =>
    if b.start then .head 1 (swapLanes b.data != p.srcPort || b.csErr) else .idle
  | .head k drop, _ => if k = 3 then .data drop true else .head (k + 1) drop
  | .data drop _, b => if b.term then .idle else .data drop false

def out : Phase → Beat → Option AppBeat
  | .data false first, b => some ⟨first, b.term, b.termLen, b.data⟩
  | _, _ => none

end Phase

def transducer (p : Params) : Transducer Phase Beat AppBeat := ⟨Phase.next p, Phase.out⟩

def Sim (s : State) : Phase → Prop
  | .idle => s.fsmIdleQ = true ∧ s.fsmHeadQ = false ∧ s.fsmDataQ = false
  | .head k drop =>
    s.fsmIdleQ = false ∧ s.fsmHeadQ = true ∧ s.fsmDataQ = false ∧ 1 ≤ k ∧ k ≤ 3 ∧
      s.cntQ = BitVec.ofNat 16 (2 * k) ∧ s.bypassVQ = drop
  | .data drop first =>
    s.fsmIdleQ = false ∧ s.fsmHeadQ = false ∧ s.fsmDataQ = true ∧ s.bypassVQ = drop ∧
      s.fsmHead2q = first

def Settled (s : State) : Prop := s.fsmIdleQ = true → s.cntQ = 0 ∧ s.bypassVQ = false

theorem beat_eq_none : beat i = none ↔ i.validI = false := by
  cases h : i.validI <;> simp [beat, h]

theorem beat_eq_some : beat i = some b ↔
    i.validI = true ∧ i.startI = b.start ∧ i.termI = b.term ∧ i.termLenI = b.termLen ∧
      i.dataI = b.data ∧ i.ipCsErrI = b.csErr := by
  cases b
  cases h : i.validI <;> simp [beat, h]

theorem Sim.out_eq (h : Sim s ph) (hb : beat i = some b) : port (out s i) = ph.out b := by
  obtain ⟨hv, _, ht, htl, hd, _⟩ := beat_eq_some.1 hb
  cases ph with
  | idle => simp [port, out, validO, Phase.out, h.2.2]
  | head => simp [port, out, validO, Phase.out, h.2.2.1]
  | data drop first =>
    obtain ⟨_, _, hdt, hdr, hf⟩ := h
    cases drop <;> simp [port, out, validO, startO, Phase.out, hv, hdt, hdr, hf, ht, htl, hd]

theorem stall_out (hb : beat i = none) : port (out s i) = none := by
  rw [beat_eq_none] at hb
  simp [port, out, validO, hb]

theorem settle (hs : i.startI = false) (hi : s.fsmIdleQ = true) :
    Settled (next p true s i) := by
  intro _
  simp [next, cntEn, cntNext, cntRst, bypassVNext, hs, hi]

theorem Settled.stall (h : Settled s) (hb : beat i = none) : Settled (next p true s i) := by
  rw [beat_eq_none] at hb
  intro hi
  have hi' : s.fsmIdleQ = true := by simpa [next, hb] using hi
  obtain ⟨hc, hbp⟩ := h hi'
  cases hs : i.startI <;>
    simp [next, cntEn, cntNext, cntRst, cntAdd, bypassVNext, dcdV, hs, hi', hb, hc, hbp]

theorem Sim.stall (h : Sim s ph) (hb : beat i = none) : Sim (next p true s i) ph := by
  rw [beat_eq_none] at hb
  cases ph <;> simp_all [Sim, next, cntEn]

theorem Sim.step (h : Sim s ph) (hset : b.start = true → Settled s) (hb : beat i = some b)
    (hcan : i.cancelI = false) (hlen : i.lenI = 2) :
    Sim (next p true s i) (ph.next p b) := by
  obtain ⟨hv, hst, ht, _, hd, he⟩ := beat_eq_some.1 hb
  cases ph with
  | idle =>
    obtain ⟨hi, hh, hdt⟩ := h
    cases hs : b.start with
    | false =>
      rw [hs] at hst
      simp [Phase.next, Sim, next, fsmIdleNext, fsmHeadNext, fsmDataNext, hs, hst, hv, hi, hh, hdt]
    | true =>
      rw [hs] at hst
      obtain ⟨hc, hbp⟩ := hset hs hi
      simp [Phase.next, Sim, next, fsmIdleNext, fsmHeadNext, fsmDataNext, cntEn, cntNext, cntRst,
        cntAdd, bypassVNext, dcdV, srcDcdV, dstDcdV, srcPortCntV, dstPortCntV, hs, hst, hv, hi, hh,
        hdt, hcan, hlen, hc, hbp, hd, he]
  | head k drop =>
    obtain ⟨hi, hh, hdt, h1, h3, hc, hdr⟩ := h
    have hadd : cntAdd s i = BitVec.ofNat 16 (2 * (k + 1)) := by
      simp only [cntAdd, hc, hv, hlen]
      exact (BitVec.ofNat_add (2 * k) 2).symm
    have hend : endHeadV s i = decide (k = 3) := by
      have hk : k = 1 ∨ k = 2 ∨ k = 3 := by omega
      rw [endHeadV, hadd]
      rcases hk with rfl | rfl | rfl <;> decide
    by_cases hk : k = 3
    · simp [Phase.next, Sim, next, fsmIdleNext, fsmHeadNext, fsmDataNext, hi, hh, hdt, hv, hcan,
        hend, hk, hdr]
    · have hk' : k + 1 ≤ 3 := by omega
      simp [Phase.next, Sim, next, fsmIdleNext, fsmHeadNext, fsmDataNext, cntEn, cntNext, cntRst,
        hi, hh, hdt, hv, hcan, hend, hk, hk', hdr, hadd]
  | data drop first =>
    obtain ⟨hi, hh, hdt, hdr, hf⟩ := h
    cases htb : b.term <;> rw [htb] at ht <;>
      simp [Phase.next, Sim, next, fsmIdleNext, fsmHeadNext, fsmDataNext, hi, hh, hdt, hv, hcan,
        ht, htb, hdr]

end UdpRx

end LowLatencyEthernet
