import LowLatencyEthernet.Beat.MacRx

namespace LowLatencyEthernet
set_option autoImplicit true

open Sync

/-- What the IPv4 layer hands to UDP in a valid cycle. -/
structure UdpRx.Beat where
  start : Bool
  term : Bool
  termLen : BitVec 2
  data : Word
  csErr : Bool
deriving DecidableEq, Repr

namespace Ipv4Rx

def beat (i : In) : Option Beat := if i.validI then some ⟨i.startI, i.dataI, i.lenI⟩ else none

def port (o : Out) : Option UdpRx.Beat :=
  if o.validO then some ⟨o.startO, o.termO, o.termLenO, o.dataO, o.csErrO⟩ else none

/-- The registers that matter while a header is read. -/
@[ext] structure Head where
  cnt : BitVec 16
  ihl : BitVec 4
  sum : BitVec 16
  carry : Bool
  drop : Bool
  srcMiss : Bool
  dstMiss : Bool
deriving DecidableEq, Repr

inductive Phase where
  | idle
  | head (h : Head)
  | data (cnt : BitVec 16) (csErr drop first : Bool)
deriving DecidableEq, Repr

/-- A reader of packets. The last total length and the last checksum field stay behind when a
packet is over, and a header too short to hold them is judged by them. -/
structure Reader where
  phase : Phase
  totLen : BitVec 16
  headCs : BitVec 16
deriving DecidableEq, Repr

namespace Head

def idx (h : Head) : BitVec 6 := h.cnt.extractLsb' 0 6

def first (b : Beat) : Head where
  cnt := b.len.setWidth 16
  ihl := b.data.extractLsb' 0 4
  sum := swapLanes b.data
  carry := false
  drop := b.data.extractLsb' 4 4 != version
  srcMiss := false
  dstMiss := false

def add (h : Head) (b : Beat) : BitVec 17 :=
  (if b.start then 0 else h.sum).setWidth 17 + (swapLanes b.data).setWidth 17 +
    (BitVec.ofBool (!b.start && h.carry)).setWidth 17

/-- `b` fails one of the checks made where it stands in the header. -/
def fails (p : Params) (h : Head) (b : Beat) : Bool :=
  (h.idx == 6 && (b.data.extractLsb' 5 3 != fragFlag)) ||
    (h.idx == 8 && (lane1 b.data != p.protocol)) ||
    (p.matchSrcAddr && (h.srcMiss || (h.idx == 13 && (p.srcAddr.extractLsb' 0 16 != b.data)))) ||
    (p.matchDstAddr && (h.dstMiss || (h.idx == 17 && (p.dstAddr.extractLsb' 0 16 != b.data))))

def next (p : Params) (h : Head) (b : Beat) : Head where
  cnt := h.cnt + b.len.setWidth 16
  ihl := h.ihl
  sum := if h.idx = 10 then h.sum else (h.add b).extractLsb' 0 16
  carry := if h.idx = 10 then h.carry else (h.add b).getLsbD 16
  drop := h.drop || h.fails p b
  srcMiss := if h.idx = 12 then p.srcAddr.extractLsb' 16 16 != b.data else h.srcMiss
  dstMiss := if h.idx = 16 then p.dstAddr.extractLsb' 16 16 != b.data else h.dstMiss

def ends (h : Head) (b : Beat) : Bool :=
  decide ((h.cnt + b.len.setWidth 16).extractLsb' 2 4 ≥ h.ihl) || (h.cnt.extractLsb' 6 10 != 0)

def csErr (h : Head) (headCs : BitVec 16) : Bool :=
  ~~~(h.sum + (BitVec.ofBool h.carry).setWidth 16) != headCs

end Head

namespace Reader

def headCsNext (r : Reader) (h : Head) (b : Beat) : BitVec 16 :=
  if h.idx = 10 then swapLanes b.data else r.headCs

def totLenNext (r : Reader) (cnt : BitVec 16) (b : Beat) : BitVec 16 :=
  if cnt = 2 then swapLanes b.data - 2 else r.totLen

def next (p : Params) (r : Reader) (b : Beat) : Reader :=
  match r.phase with
  | .idle => if b.start then { r with phase := .head (Head.first b) } else r
  | .head h =>
    { phase :=
        if h.ends b then
          .data (h.next p b).cnt ((h.next p b).csErr (r.headCsNext h b)) (h.next p b).drop true
        else .head (h.next p b)
      totLen := r.totLenNext h.cnt b
      headCs := r.headCsNext h b }
  | .data cnt csErr drop _ =>
    { r with
      phase :=
        if cnt ≥ r.totLen then .idle
        else .data (cnt + b.len.setWidth 16) csErr (drop || csErr) false
      totLen := r.totLenNext cnt b }

def termLen (r : Reader) : BitVec 2 :=
  BitVec.ofBool (!r.totLen.getLsbD 0) ++ BitVec.ofBool (r.totLen.getLsbD 0)

def out (r : Reader) (b : Beat) : Option UdpRx.Beat :=
  match r.phase with
  | .data cnt csErr false first =>
    some ⟨first, decide (cnt ≥ r.totLen), r.termLen, b.data, csErr⟩
  | _ => none

def startO (r : Reader) : Bool :=
  match r.phase with
  | .data _ _ _ first => first
  | _ => false

end Reader

def transducer (p : Params) : Transducer Reader Beat UdpRx.Beat := ⟨Reader.next p, Reader.out⟩

def LenOk (b : Beat) : Prop := b.len = 1 ∨ b.len = 2

/-- The registers that the circuit still looks at, for a reader. While the checksum field is awaited
its register takes whatever the bus holds. -/
def Reads (s : State) (r : Reader) : Prop :=
  match r.phase with
  | .idle => s.fsmIdleQ = true ∧ s.fsmHeadQ = false ∧ s.fsmDataQ = false
  | .head h =>
    s.totLenQ = r.totLen ∧ s.fsmIdleQ = false ∧ s.fsmHeadQ = true ∧ s.fsmDataQ = false ∧
      (h.idx ≠ 10 → s.headChecksumQ = r.headCs) ∧ s.cntQ = h.cnt ∧ s.ihlQ = h.ihl ∧
      s.csQ = h.sum ∧ s.csCarryQ = h.carry ∧ s.bypassVQ = h.drop ∧
      s.srcAddrMatch.addrDcdMsbVQ = h.srcMiss ∧ s.dstAddrMatch.addrDcdMsbVQ = h.dstMiss
  | .data cnt csErr drop first =>
    s.totLenQ = r.totLen ∧ s.fsmIdleQ = false ∧ s.fsmHeadQ = false ∧ s.fsmDataQ = true ∧
      s.headChecksumQ = r.headCs ∧ s.cntQ = cnt ∧ csErrV s = csErr ∧ s.bypassVQ = drop ∧
      s.fsmHead2q = first

/-- What holds besides when every packet finds the counter clear: what the last one left stays until
the next, and past the end of the counter only the largest total length is still open. -/
def Bounded (s : State) (r : Reader) : Prop :=
  match r.phase with
  | .idle => s.totLenQ = r.totLen ∧ s.headChecksumQ = r.headCs
  | .head h => 1 ≤ h.cnt.toNat ∧ h.cnt.toNat ≤ 65
  | .data cnt _ _ _ => cnt.toNat ≤ 1 → r.totLen.toNat = 65535

structure Sim (s : State) (r : Reader) : Prop where
  reads : Reads s r
  bounded : Bounded s r

theorem Sim.headCs_idle (h : Sim s r) (hr : r.phase = .idle) : s.headChecksumQ = r.headCs := by
  obtain ⟨ph, tl, hc⟩ := r
  obtain rfl : ph = .idle := hr
  exact h.bounded.2

def Settled (s : State) : Prop := s.fsmIdleQ = true → s.cntQ = 0 ∧ s.bypassVQ = false

def Calm (s : State) : Prop := s.fsmIdleQ = true → s.cntQ ≠ 2

theorem Settled.calm (h : Settled s) : Calm s := by
  intro hi
  rw [(h hi).1]
  decide

theorem beat_eq_none : beat i = none ↔ i.validI = false := by
  cases h : i.validI <;> simp [beat, h]

theorem beat_eq_some : beat i = some b ↔
    i.validI = true ∧ i.startI = b.start ∧ i.dataI = b.data ∧ i.lenI = b.len := by
  cases b
  cases h : i.validI <;> simp [beat, h]

theorem Reads.startO (h : Reads s r) : startO s = r.startO := by
  obtain ⟨ph, tl, hc⟩ := r
  cases ph with
  | idle => simp [Ipv4Rx.startO, Reader.startO, h.2.2]
  | head => simp [Ipv4Rx.startO, Reader.startO, h.2.2.2.1]
  | data cnt e d f =>
    obtain ⟨_, _, _, hd, _, _, _, _, hf⟩ := h
    simp [Ipv4Rx.startO, Reader.startO, hd, hf]

theorem Reads.out_eq (h : Reads s r) (hb : beat i = some b) : port (out s i) = r.out b := by
  obtain ⟨hv, _, hd, _⟩ := beat_eq_some.1 hb
  obtain ⟨ph, tl, hc⟩ := r
  cases ph with
  | idle => simp [port, out, validO, Reader.out, h.2.2]
  | head => simp [port, out, validO, Reader.out, h.2.2.2.1]
  | data cnt e d f =>
    obtain ⟨htl, _, _, hdt, _, hcn, he, hby, hf⟩ := h
    cases d <;>
      simp_all [port, out, validO, Ipv4Rx.startO, endDataV, endDataLiteV, termLenO, Reader.out,
        Reader.termLen]

theorem stall_out (hb : beat i = none) : port (out s i) = none := by
  rw [beat_eq_none] at hb
  simp [port, out, validO, hb]

theorem settle (hs : i.startI = false) (hi : s.fsmIdleQ = true) :
    Settled (next p true s i) := by
  intro _
  simp [next, cntEn, cntNext, cntRst, bypassVNext, hs, hi]

theorem Settled.stall (h : Settled s) (hb : beat i = none) : Settled (next p true s i) := by
  rw [beat_eq_none] at hb
  intro hi
  have hi' : s.fsmIdleQ = true := by simpa [next, hb] using hi
  obtain ⟨hc, hbp⟩ := h hi'
  cases hs : i.startI <;>
    simp [next, cntEn, cntNext, cntRst, cntLiteNext, cntAdd, bypassVNext, hs, hi', hb, hc, hbp]

theorem Calm.stall (h : Calm s) (hb : beat i = none) : Calm (next p true s i) := by
  rw [beat_eq_none] at hb
  intro hi
  have hi' : s.fsmIdleQ = true := by simpa [next, hb] using hi
  have hc := h hi'
  cases hs : i.startI
  · rw [(settle hs hi' hi).1]
    decide
  · simpa [next, cntEn, cntNext, cntRst, cntLiteNext, cntAdd, hs, hi', hb] using hc

theorem Reads.stall (h : Reads s r) (hb : beat i = none) : Reads (next p true s i) r := by
  rw [beat_eq_none] at hb
  obtain ⟨ph, tl, hc⟩ := r
  cases ph with
  | idle =>
    obtain ⟨hi, hh, hd⟩ := h
    simp_all [Reads, next]
  | head h' =>
    obtain ⟨htl, hi, hh, hd, hcs, hcn, hih, hsm, hca, hdr, hsr, hds⟩ := h
    refine ⟨by simp [next, totLenEn, hb, htl], by simp [next, hb, hi], by simp [next, hb, hh],
      by simp [next, hb, hd], ?_, by simp [next, cntEn, hi, hb, hcn], by simp [next, hi, hih],
      by simp [next, csEn, hi, hb, hsm], by simp [next, csEn, hi, hb, hca], ?_, ?_, ?_⟩
    · intro hx
      have hne : headChecksumLiteV s = false := by
        simpa [headChecksumLiteV, headIdx, hcn, Head.idx] using hx
      simp [next, headChecksumEn, hne, hcs hx]
    · simp [next, bypassVNext, cntRst, hi, hb, hdr]
    · simp [next, IpAddrMatch.next, IpAddrMatch.addrMsbEn, addrIn, hi, hb, hsr]
    · simp [next, IpAddrMatch.next, IpAddrMatch.addrMsbEn, addrIn, hi, hb, hds]
  | data cnt e d f =>
    obtain ⟨htl, hi, hh, hd, hcs, hcn, he, hdr, hf⟩ := h
    have he' : csErrV (next p true s i) = e := by
      rw [← he]
      simp [csErrV, cs, next, csEn, headChecksumEn, hi, hh, hb]
    exact ⟨by simp [next, totLenEn, hb, htl], by simp [next, hb, hi], by simp [next, hb, hh],
      by simp [next, hb, hd], by simp [next, headChecksumEn, hh, hcs],
      by simp [next, cntEn, hi, hb, hcn], he', by simp [next, bypassVNext, cntRst, hi, hb, hdr],
      by simp [next, hb, hf]⟩

theorem Sim.stall (h : Sim s r) (hb : beat i = none) : Sim (next p true s i) r := by
  refine ⟨h.reads.stall hb, ?_⟩
  obtain ⟨hr, hbd⟩ := h
  rw [beat_eq_none] at hb
  obtain ⟨ph, tl, hc⟩ := r
  cases ph with
  | idle =>
    obtain ⟨htl, hcs⟩ := hbd
    exact ⟨by simp [next, totLenEn, hb, htl], by simp [next, headChecksumEn, hr.2.1, hcs]⟩
  | head => exact hbd
  | data => exact hbd

theorem extractLsb'_setWidth (x : BitVec 16) : (x.setWidth 17).extractLsb' 0 16 = x := by
  ext j hj
  have h17 : j < 17 := by omega
  simp [hj, h17]

theorem LenOk.toNat (h : LenOk b) :
    1 ≤ (b.len.setWidth 16).toNat ∧ (b.len.setWidth 16).toNat ≤ 2 := by
  rcases h with h | h <;> rw [h] <;> decide

/-- The reader after the first beat of a packet, wherever the counter is when it comes. -/
def opened (s : State) (b : Beat) : Reader where
  phase := .head { Head.first b with
    cnt := s.cntQ + b.len.setWidth 16
    drop := s.bypassVQ || (Head.first b).drop }
  totLen := if s.cntQ = 2 then swapLanes b.data - 2 else s.totLenQ
  headCs := s.headChecksumQ

theorem cntAdd_eq (hb : beat i = some b) : cntLiteNext s i = s.cntQ + b.len.setWidth 16 := by
  obtain ⟨hv, _, _, hl⟩ := beat_eq_some.1 hb
  simp [cntLiteNext, cntAdd, hv, hl]

theorem Reads.step_start (h : Reads s ⟨.idle, tl, hc⟩) (hb : beat i = some b)
    (hs : b.start = true) (hcan : i.cancelI = false) :
    Reads (next p true s i) (opened s b) := by
  obtain ⟨hv, hst, hd, hl⟩ := beat_eq_some.1 hb
  obtain ⟨hi, hh, hdt⟩ := h
  rw [hs] at hst
  refine ⟨?_, ?_, ?_, ?_, fun _ => ?_, ?_, ?_, ?_, ?_, ?_, ?_, ?_⟩
  · by_cases h2 : s.cntQ = 2#16 <;> simp [opened, next, totLenEn, totLenNext, h2, hv, hd]
  · simp [next, fsmIdleNext, hv, hst, hi, hh, hdt, hcan]
  · simp [next, fsmHeadNext, hv, hst, hi, hh]
  · simp [next, fsmDataNext, hv, hh, hdt]
  · simp [opened, next, headChecksumEn, hh]
  · simp [next, cntEn, cntNext, cntRst, cntAdd_eq hb, hst, hi]
  · simp [next, ihlNext, Head.first, hi, hd]
  · simp only [next, csEn, csSum, csAdd, csAddCarry, csRst, Head.first, hv, hst, hi, hd]
    simp [extractLsb'_setWidth]
  · simp only [next, csEn, csSum, csAdd, csAddCarry, csRst, Head.first, hv, hst, hi, hd]
    simp
  · simp [next, bypassVNext, cntRst, dcdV, versionDcdLiteV, csErrV, srcAddrDcdV, dstAddrDcdV,
      IpAddrMatch.matchFailVO, addrIn, Head.first, hv, hst, hi, hh, hdt, hd]
  · simp [next, IpAddrMatch.next, IpAddrMatch.addrMsbEn, IpAddrMatch.addrDcdMsbVNext, addrIn,
      Head.first, hi]
  · simp [next, IpAddrMatch.next, IpAddrMatch.addrMsbEn, IpAddrMatch.addrDcdMsbVNext, addrIn,
      Head.first, hi]

theorem Reads.step_idle (h : Reads s ⟨.idle, tl, hc⟩) (hb : beat i = some b)
    (hs : b.start = false) : Reads (next p true s i) ⟨.idle, tl, hc⟩ := by
  obtain ⟨hv, hst, _, _⟩ := beat_eq_some.1 hb
  obtain ⟨hi, hh, hdt⟩ := h
  rw [hs] at hst
  refine ⟨?_, ?_, ?_⟩ <;> simp [next, fsmIdleNext, fsmHeadNext, fsmDataNext, hv, hst, hi, hh, hdt]

theorem opened_clear (h : s.cntQ = 0 ∧ s.bypassVQ = false) (hs : b.start = true) :
    opened s b = Reader.next p ⟨.idle, s.totLenQ, s.headChecksumQ⟩ b := by
  simp [opened, Reader.next, Head.first, hs, h.1, h.2]

theorem Sim.step_idle (h : Sim s ⟨.idle, tl, hc⟩) (hcalm : Calm s)
    (hset : b.start = true → Settled s) (hb : beat i = some b) (hcan : i.cancelI = false)
    (hlen : LenOk b) :
    Sim (next p true s i) (Reader.next p ⟨.idle, tl, hc⟩ b) := by
  obtain ⟨h1, h2⟩ := hlen.toNat
  obtain ⟨htl, hcs⟩ := h.bounded
  obtain ⟨hi, hh, _⟩ := h.reads
  cases hs : b.start with
  | false =>
    have hr : Reader.next p ⟨.idle, tl, hc⟩ b = ⟨.idle, tl, hc⟩ := by simp [Reader.next, hs]
    have hen : totLenEn s i = false := by
      simp only [totLenEn, beq_eq_false_iff_ne.2 (hcalm hi), Bool.false_and]
    rw [hr]
    refine ⟨h.reads.step_idle hb hs, ?_, ?_⟩
    · simp [next, hen, htl]
    · simp [next, headChecksumEn, hh, hcs]
  | true =>
    have hr : Reader.next p ⟨.idle, tl, hc⟩ b = ⟨.head (Head.first b), tl, hc⟩ := by
      simp [Reader.next, hs]
    have hreads := h.reads.step_start (p := p) hb hs hcan
    rw [opened_clear (p := p) (hset hs hi) hs, htl, hcs] at hreads
    refine ⟨hreads, ?_⟩
    rw [hr]
    exact ⟨h1, Nat.le_trans h2 (by decide)⟩

theorem totLenQ_next {r : Reader} (hb : beat i = some b) (htl : s.totLenQ = r.totLen)
    (hcn : s.cntQ = cnt) : (next p true s i).totLenQ = r.totLenNext cnt b := by
  obtain ⟨hv, _, hd, _⟩ := beat_eq_some.1 hb
  simp [next, totLenEn, totLenNext, Reader.totLenNext, hcn, hv, hd, htl]

theorem cntQ_next (hb : beat i = some b) (hi : s.fsmIdleQ = false) :
    (next p true s i).cntQ = s.cntQ + b.len.setWidth 16 := by
  obtain ⟨hv, _, _, _⟩ := beat_eq_some.1 hb
  simp only [next, cntEn, cntNext, cntRst, cntAdd_eq hb, hi, hv]
  simp

theorem Head.cnt_lt {h : Head} (he : h.ends b = false) : h.cnt.toNat < 64 := by
  have hz : h.cnt.extractLsb' 6 10 = 0 := by
    simp only [Head.ends, Bool.or_eq_false_iff, bne_eq_false_iff_eq] at he
    exact he.2
  have hz' := congrArg BitVec.toNat hz
  have hlt := h.cnt.isLt
  simp only [BitVec.extractLsb'_toNat, Nat.shiftRight_eq_div_pow] at hz'
  simp at hz'
  omega

theorem Reads.ends_eq (h : Reads s ⟨.head h', tl, hc⟩) (hb : beat i = some b) :
    endHeadV s i = h'.ends b := by
  obtain ⟨_, _, _, _, _, hcn, hih, _⟩ := h
  rw [endHeadV, cntAdd_eq hb, hcn, hih, Head.ends]

theorem Reads.head_sum (h : Reads s ⟨.head h', tl, hc⟩) (hb : beat i = some b) :
    (next p true s i).headChecksumQ = Reader.headCsNext ⟨.head h', tl, hc⟩ h' b ∧
      (next p true s i).csQ = (h'.next p b).sum ∧
        (next p true s i).csCarryQ = (h'.next p b).carry := by
  obtain ⟨hv, hst, hd, hl⟩ := beat_eq_some.1 hb
  obtain ⟨_, hi, hh, hdt, hcs, hcn, _, hsm, hca, _⟩ := h
  have hidx : headIdx s = h'.idx := by rw [headIdx, hcn, Head.idx]
  have hsum : csSum s i = h'.add b := by
    simp only [csSum, csAdd, csAddCarry, csRst, Head.add, hv, hst, hsm, hca, hd, Bool.true_and]
  by_cases hx : h'.idx = 10#6
  · -- the checksum field itself is not added
    refine ⟨?_, ?_, ?_⟩
    · simp [next, headChecksumEn, headChecksumLiteV, Reader.headCsNext, hidx, hh, hx, hd]
    · simp [next, csEn, headChecksumLiteV, Head.next, hidx, hx, hi, hv, hdt, hsm]
    · simp [next, csEn, headChecksumLiteV, Head.next, hidx, hx, hi, hv, hdt, hca]
  · refine ⟨?_, ?_, ?_⟩
    · simp [next, headChecksumEn, headChecksumLiteV, Reader.headCsNext, hidx, hx, hcs hx]
    · simp [next, csEn, headChecksumLiteV, Head.next, hsum, hidx, hx, hi, hv, hdt]
    · simp [next, csEn, headChecksumLiteV, Head.next, hsum, hidx, hx, hi, hv, hdt]

theorem Reads.head_filters (h : Reads s ⟨.head h', tl, hc⟩) (hb : beat i = some b) :
    (next p true s i).bypassVQ = (h'.next p b).drop ∧
      (next p true s i).srcAddrMatch.addrDcdMsbVQ = (h'.next p b).srcMiss ∧
        (next p true s i).dstAddrMatch.addrDcdMsbVQ = (h'.next p b).dstMiss := by
  obtain ⟨hv, hst, hd, hl⟩ := beat_eq_some.1 hb
  obtain ⟨_, hi, hh, hdt, _, hcn, _, _, _, hdr, hsr, hds⟩ := h
  have hidx : headIdx s = h'.idx := by rw [headIdx, hcn, Head.idx]
  have hfail : (i.validI && dcdV p s i) = h'.fails p b := by
    simp [dcdV, versionDcdLiteV, fragDcdLiteV, protDcdLiteV, srcAddrDcdV, dstAddrDcdV, csErrV,
      IpAddrMatch.matchFailVO, IpAddrMatch.addrDcdLsbV, IpAddrMatch.lsbIdx, addrIn,
      srcAddrParams, dstAddrParams, Head.fails, hidx, hi, hh, hdt, hv, hd, hsr, hds]
  refine ⟨?_, ?_, ?_⟩
  · simp [next, bypassVNext, cntRst, hi, hdr, hfail, Head.next]
  · simp [next, IpAddrMatch.next, IpAddrMatch.addrMsbEn, IpAddrMatch.addrMsbIdxV,
      IpAddrMatch.addrDcdMsbVNext, addrIn, srcAddrParams, Head.next, hidx, hi, hv, hd, hsr]
  · simp [next, IpAddrMatch.next, IpAddrMatch.addrMsbEn, IpAddrMatch.addrMsbIdxV,
      IpAddrMatch.addrDcdMsbVNext, addrIn, dstAddrParams, Head.next, hidx, hi, hv, hd, hds]

theorem Reads.step_head (h : Reads s ⟨.head h', tl, hc⟩) (hb : beat i = some b)
    (hcan : i.cancelI = false) :
    Reads (next p true s i) (Reader.next p ⟨.head h', tl, hc⟩ b) := by
  obtain ⟨hcs', hsm', hca'⟩ := h.head_sum (p := p) hb
  obtain ⟨hdr', hsr', hds'⟩ := h.head_filters (p := p) hb
  have hend := h.ends_eq hb
  obtain ⟨hv, _, _, _⟩ := beat_eq_some.1 hb
  obtain ⟨htl, hi, hh, hdt, _, hcn, hih, _⟩ := h
  have htl' : (next p true s i).totLenQ = Reader.totLenNext ⟨.head h', tl, hc⟩ h'.cnt b :=
    totLenQ_next hb htl hcn
  have hcn' : (next p true s i).cntQ = (h'.next p b).cnt := by
    rw [cntQ_next hb hi, hcn, Head.next]
  have hih' : (next p true s i).ihlQ = (h'.next p b).ihl := by simp [next, hi, hih, Head.next]
  cases he : h'.ends b with
  | true =>
    have hr : Reader.next p ⟨.head h', tl, hc⟩ b =
        ⟨.data (h'.next p b).cnt ((h'.next p b).csErr (Reader.headCsNext ⟨.head h', tl, hc⟩ h' b))
          (h'.next p b).drop true, Reader.totLenNext ⟨.head h', tl, hc⟩ h'.cnt b,
          Reader.headCsNext ⟨.head h', tl, hc⟩ h' b⟩ := by simp [Reader.next, he]
    have hfd : (next p true s i).fsmDataQ = true := by
      simp [next, fsmDataNext, hv, hh, hend, he]
    rw [hr]
    refine ⟨htl', ?_, ?_, hfd, hcs', hcn', ?_, hdr', ?_⟩
    · simp [next, fsmIdleNext, hv, hi, hdt, hcan]
    · simp [next, fsmHeadNext, hv, hi, hend, he]
    · rw [csErrV, cs, hsm', hca', hcs', hfd, Head.csErr, Bool.true_and]
    · simp [next, hv, hh]
  | false =>
    have hr : Reader.next p ⟨.head h', tl, hc⟩ b =
        ⟨.head (h'.next p b), Reader.totLenNext ⟨.head h', tl, hc⟩ h'.cnt b,
          Reader.headCsNext ⟨.head h', tl, hc⟩ h' b⟩ := by simp [Reader.next, he]
    rw [hr]
    refine ⟨htl', ?_, ?_, ?_, fun _ => hcs', hcn', hih', hsm', hca', hdr', hsr', hds'⟩
    · simp [next, fsmIdleNext, hv, hi, hdt, hcan]
    · simp [next, fsmHeadNext, hv, hh, hend, he]
    · simp [next, fsmDataNext, hv, hdt, hend, he]

theorem Sim.step_head (h : Sim s ⟨.head h', tl, hc⟩) (hb : beat i = some b)
    (hcan : i.cancelI = false) (hlen : LenOk b) :
    Sim (next p true s i) (Reader.next p ⟨.head h', tl, hc⟩ b) := by
  refine ⟨h.reads.step_head hb hcan, ?_⟩
  obtain ⟨h1, h65⟩ := h.bounded
  obtain ⟨hl1, hl2⟩ := hlen.toNat
  have hsize : (h'.next p b).cnt.toNat = h'.cnt.toNat + (b.len.setWidth 16).toNat := by
    simp only [Head.next, BitVec.toNat_add]
    omega
  cases he : h'.ends b with
  | true =>
    simp only [Reader.next, he, Bounded, if_true]
    omega
  | false =>
    have h64 := Head.cnt_lt he
    simp only [Reader.next, he, Bounded, Bool.false_eq_true, if_false]
    omega

theorem Reads.step_data (h : Reads s ⟨.data cnt e d f, tl, hc⟩) (hb : beat i = some b)
    (hcan : i.cancelI = false) :
    Reads (next p true s i) (Reader.next p ⟨.data cnt e d f, tl, hc⟩ b) := by
  obtain ⟨hv, hst, hd, hl⟩ := beat_eq_some.1 hb
  obtain ⟨htl, hi, hh, hdt, hcs, hcn, he, hdr, hf⟩ := h
  have hend : endDataLiteV s = decide (cnt ≥ tl) := by simp [endDataLiteV, hcn, htl]
  have htl' : (next p true s i).totLenQ = Reader.totLenNext ⟨.data cnt e d f, tl, hc⟩ cnt b :=
    totLenQ_next hb htl hcn
  have hcs' : (next p true s i).headChecksumQ = hc := by simp [next, headChecksumEn, hh, hcs]
  have hcn' : (next p true s i).cntQ = cnt + b.len.setWidth 16 := by rw [cntQ_next hb hi, hcn]
  by_cases hge : cnt ≥ tl
  · have hr : Reader.next p ⟨.data cnt e d f, tl, hc⟩ b =
        ⟨.idle, Reader.totLenNext ⟨.data cnt e d f, tl, hc⟩ cnt b, hc⟩ := by
      simp [Reader.next, hge]
    rw [hr]
    refine ⟨?_, ?_, ?_⟩
    · simp [next, fsmIdleNext, hv, hdt, hend, hge]
    · simp [next, fsmHeadNext, hv, hi, hh]
    · simp [next, fsmDataNext, hv, hh, hend, hge]
  · have hr : Reader.next p ⟨.data cnt e d f, tl, hc⟩ b =
        ⟨.data (cnt + b.len.setWidth 16) e (d || e) false,
          Reader.totLenNext ⟨.data cnt e d f, tl, hc⟩ cnt b, hc⟩ := by
      simp [Reader.next, hge]
    have hfd : (next p true s i).fsmDataQ = true := by
      simp [next, fsmDataNext, hv, hdt, hend, hge]
    rw [hr]
    refine ⟨htl', ?_, ?_, hfd, hcs', hcn', ?_, ?_, ?_⟩
    · simp [next, fsmIdleNext, hv, hi, hend, hge, hcan]
    · simp [next, fsmHeadNext, hv, hi, hh]
    · rw [← he]
      simp [csErrV, cs, next, csEn, headChecksumEn, fsmDataNext, hi, hh, hdt, hv, hend, hge]
    · simp [next, bypassVNext, cntRst, dcdV, versionDcdLiteV, srcAddrDcdV, dstAddrDcdV,
        IpAddrMatch.matchFailVO, addrIn, hi, hh, hv, hdr, he]
    · simp [next, hv, hh]

theorem Sim.step_data (h : Sim s ⟨.data cnt e d f, tl, hc⟩) (hb : beat i = some b)
    (hcan : i.cancelI = false) (hlen : LenOk b) :
    Sim (next p true s i) (Reader.next p ⟨.data cnt e d f, tl, hc⟩ b) := by
  refine ⟨h.reads.step_data hb hcan, ?_⟩
  have hwr : cnt.toNat ≤ 1 → tl.toNat = 65535 := h.bounded
  obtain ⟨htl, hi, hh, _, hcs, hcn, _⟩ := h.reads
  obtain ⟨hl1, hl2⟩ := hlen.toNat
  have hsize := BitVec.toNat_add cnt (b.len.setWidth 16)
  have hlt := cnt.isLt
  by_cases hge : cnt ≥ tl
  · have hr : Reader.next p ⟨.data cnt e d f, tl, hc⟩ b =
        ⟨.idle, Reader.totLenNext ⟨.data cnt e d f, tl, hc⟩ cnt b, hc⟩ := by
      simp [Reader.next, hge]
    rw [hr]
    exact ⟨totLenQ_next hb htl hcn, by simp [next, headChecksumEn, hh, hcs]⟩
  · have hr : Reader.next p ⟨.data cnt e d f, tl, hc⟩ b =
        ⟨.data (cnt + b.len.setWidth 16) e (d || e) false,
          Reader.totLenNext ⟨.data cnt e d f, tl, hc⟩ cnt b, hc⟩ := by
      simp [Reader.next, hge]
    have hge' : cnt.toNat < tl.toNat := BitVec.lt_def.1 (BitVec.not_le.1 hge)
    have htlt := tl.isLt
    rw [hr]
    intro h01
    have h2 : cnt ≠ 2 := by
      intro h2
      have h2' : cnt.toNat = 2 := by rw [h2]; rfl
      omega
    simp only [Reader.totLenNext, if_neg h2]
    by_cases h1 : cnt.toNat ≤ 1
    · exact hwr h1
    · omega

theorem Sim.step (h : Sim s r) (hcalm : Calm s) (hset : b.start = true → Settled s)
    (hb : beat i = some b) (hcan : i.cancelI = false) (hlen : LenOk b) :
    Sim (next p true s i) (r.next p b) := by
  obtain ⟨ph, tl, hc⟩ := r
  cases ph with
  | idle => exact h.step_idle hcalm hset hb hcan hlen
  | head => exact h.step_head hb hcan hlen
  | data => exact h.step_data hb hcan hlen

theorem Sim.calm_step (h : Sim s r) (hb : beat i = some b) (hcan : i.cancelI = false)
    (hlen : LenOk b) : Calm (next p true s i) := by
  obtain ⟨hv, hst, _, _⟩ := beat_eq_some.1 hb
  obtain ⟨hl1, hl2⟩ := hlen.toNat
  obtain ⟨ph, tl, hc⟩ := r
  cases ph with
  | idle =>
    obtain ⟨hi, hh, hd⟩ := h.reads
    cases hs : i.startI with
    | false => exact (settle hs hi).calm
    | true =>
      intro hi'
      simp [next, fsmIdleNext, hv, hs, hd, hcan] at hi'
  | head h' =>
    obtain ⟨_, hi, _, hd, _⟩ := h.reads
    intro hi'
    simp [next, fsmIdleNext, hv, hi, hd, hcan] at hi'
  | data cnt e d f =>
    have hwr : cnt.toNat ≤ 1 → tl.toNat = 65535 := h.bounded
    obtain ⟨htl, hi, _, hd, _, hcn, _⟩ := h.reads
    intro hi'
    have hge : cnt ≥ tl := by
      simpa [next, fsmIdleNext, endDataLiteV, hv, hi, hd, hcan, hcn, htl] using hi'
    rw [cntQ_next hb hi, hcn]
    intro h2
    have hge' : tl.toNat ≤ cnt.toNat := hge
    have h2' : (cnt + b.len.setWidth 16).toNat = 2 := by rw [h2]; rfl
    have hsize := BitVec.toNat_add cnt (b.len.setWidth 16)
    have h01 : cnt.toNat ≤ 1 := by omega
    have htop : tl.toNat = 65535 := hwr h01
    have hlt := cnt.isLt
    omega

end Ipv4Rx

end LowLatencyEthernet
