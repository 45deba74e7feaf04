import Mathlib.Logic.Equiv.Basic
import LowLatencyEthernet.Sync.Presented
import LowLatencyEthernet.Rtl.TcpRx

namespace LowLatencyEthernet.TcpRx
set_option autoImplicit true

open Sync

theorem halves (q : BitVec 32) : half q 1 ++ half q 0 = q := by
  apply BitVec.eq_of_getLsbD_eq
  intro i hi
  rw [BitVec.getLsbD_append]
  split
  next h => simp [half, h]
  next h =>
    have hlt : i - 16 < 16 := by omega
    have he : 16 + (i - 16) = i := by omega
    simp [half, hlt, he]

theorem dstPortQ_next (s : State) (i : In) :
    (next true s i).dstPortQ = if s.headCntQ.toNat = 2 then i.dataI else s.dstPortQ := by
  simp only [next, dstPortEn, beq_iff_eq, ← BitVec.toNat_inj]
  rfl

theorem seqQ_next (s : State) (i : In) :
    (next true s i).seqQ = if s.headCntQ.toNat = 4 then i.dataI ++ i.dataI else s.seqQ := by
  have hn : (next true s i).seqQ = seqNext s i 1 ++ seqNext s i 0 := rfl
  rw [hn]
  by_cases h : s.headCntQ.toNat = 4
  · simp [seqNext, seqEn, h]
  · simp only [seqNext, seqEn, Ne.symm h, h, beq_iff_eq, Nat.reduceDiv, Nat.reduceMul,
      Nat.add_zero, if_false]
    exact halves s.seqQ

theorem ackQ_next (s : State) (i : In) :
    (next true s i).ackQ = if s.headCntQ.toNat = 8 then i.dataI ++ i.dataI else s.ackQ := by
  have hn : (next true s i).ackQ = ackNext s i 1 ++ ackNext s i 0 := rfl
  rw [hn]
  by_cases h : s.headCntQ.toNat = 8
  · simp [ackNext, ackEn, h]
  · simp only [ackNext, ackEn, Ne.symm h, h, beq_iff_eq, Nat.reduceDiv, Nat.reduceMul,
      Nat.add_zero, if_false]
    exact halves s.ackQ

/-- The register `q` holds what `f` makes of the word at `k`, once that word has come. -/
def Holds (q : BitVec n) (f : Word → BitVec n) (ws : List Word) (k : Nat) : Prop :=
  ∀ w, ws[k]? = some w → q = f w

theorem Holds.keep (h : Holds q f ws k) (hq : k < ws.length → q' = q) : Holds q' f ws k := by
  intro w hw
  obtain ⟨hlt, -⟩ := List.getElem?_eq_some_iff.1 hw
  rw [hq hlt, h w hw]

theorem Holds.step (h : Holds q f ws k) (hk : ws.length = k → q' = f w)
    (hq : k < ws.length → q' = q) : Holds q' f (ws ++ [w]) k := by
  intro v hv
  rcases Nat.lt_trichotomy k ws.length with hlt | heq | hgt
  · rw [List.getElem?_append_left hlt] at hv
    rw [hq hlt, h v hv]
  · rw [heq, List.getElem?_concat_length, Option.some.injEq] at hv
    rw [hk heq.symm, hv]
  · rw [List.getElem?_eq_none (by simp; omega)] at hv
    cases hv

theorem holds_nil (q : BitVec n) (f : Word → BitVec n) (k : Nat) : Holds q f [] k := by
  intro w hw
  cases hw

/-- Only the idle bit is set. -/
structure Idle (s : State) : Prop where
  idle : s.fsmIdleQ = true
  head : s.fsmHeadQ = false
  data : s.fsmDataQ = false

/-- The words of a header that have come while its end is still ahead. -/
structure Heading (s : State) (ws : List Word) : Prop where
  idle : s.fsmIdleQ = decide (ws = [])
  head : s.fsmHeadQ = decide (ws ≠ [])
  data : s.fsmDataQ = false
  short : ws.length ≤ 7
  headCnt : ws ≠ [] → s.headCntQ.toNat = 2 * ws.length
  srcPort : Holds s.srcPortQ id ws 0
  dstPort : Holds s.dstPortQ id ws 1
  seq : Holds s.seqQ (fun w => w ++ w) ws 2
  ack : Holds s.ackQ (fun w => w ++ w) ws 4

theorem Idle.heading (h : Idle s) : Heading s [] where
  idle := h.idle
  head := h.head
  data := h.data
  short := Nat.zero_le _
  headCnt hne := absurd rfl hne
  srcPort := holds_nil _ _ _
  dstPort := holds_nil _ _ _
  seq := holds_nil _ _ _
  ack := holds_nil _ _ _

def beat (i : In) : Option In := if i.validI then some i else none

theorem beat_eq_some : beat i = some b ↔ i.validI = true ∧ b = i := by
  cases h : i.validI <;> simp [beat, h, eq_comm]

theorem beat_eq_none : beat i = none ↔ i.validI = false := by
  cases h : i.validI <;> simp [beat, h]

def collect : Transducer (List Word) In Unit := ⟨fun ws i => ws ++ [i.dataI], fun _ _ => none⟩

theorem collect_run (ws : List Word) (bs : List In) :
    collect.run ws bs = ws ++ bs.map In.dataI := by
  induction bs generalizing ws with
  | nil => simp
  | cons b bs ih =>
    rw [Mealy.run_cons, ih, collect, List.append_assoc]
    rfl

/-- The beats before the eighth: two bytes each, the first with the start. -/
def Regular (ws : List Word) (i : In) : Prop :=
  i.startI = decide (ws = []) ∧ i.lenI = 2 ∧ ws.length < 7

theorem Heading.holds (h : Heading s ws) (hk : k < ws.length) (hn : m = 2 * k) :
    s.headCntQ.toNat ≠ m := by
  have hne : ws ≠ [] := List.ne_nil_of_length_pos (by omega)
  rw [h.headCnt hne]
  omega

/-- A register that takes a word at the counter of word `k` is written again until the next beat. -/
theorem Heading.kept (h : Heading s ws) (hold : Holds q f ws k)
    (hq : q' = if s.headCntQ.toNat = 2 * k then f w else q) : Holds q' f ws k := by
  apply hold.keep
  intro hk
  rw [hq, if_neg (h.holds hk rfl)]

theorem Heading.latch (h : Heading s ws) (hold : Holds q f ws k) (h0 : 0 < k)
    (hq : q' = if s.headCntQ.toNat = 2 * k then f w else q) : Holds q' f (ws ++ [w]) k := by
  apply hold.step
  · intro hk
    have hcnt := h.headCnt (List.ne_nil_of_length_pos (by omega))
    rw [hq, if_pos (by omega)]
  · intro hk
    rw [hq, if_neg (h.holds hk rfl)]

theorem Heading.stall (h : Heading s ws) (hb : beat i = none) : Heading (next true s i) ws := by
  have hv := beat_eq_none.1 hb
  constructor
  case idle => simp [next, fsmIdleNext, startV, hv, h.idle, h.data]
  case head => simp [next, fsmHeadNext, headEndV, startV, hv, h.head]
  case data => simp [next, fsmDataNext, headEndV, hv, h.data]
  case short => exact h.short
  case headCnt =>
    intro hne
    simpa [next, hv] using h.headCnt hne
  case srcPort => exact h.srcPort.keep fun _ => by simp [next, srcPortEn, startV, hv]
  case dstPort => exact h.kept h.dstPort (dstPortQ_next s i)
  case seq => exact h.kept h.seq (seqQ_next s i)
  case ack => exact h.kept h.ack (ackQ_next s i)

theorem headCntNext_start (hs : i.startI = true) (hl : i.lenI = 2) :
    (headCntNext s i).toNat = 2 := by
  rw [headCntNext, if_pos hs, hl]
  rfl

theorem headCntNext_add (hs : i.startI = false) (hl : i.lenI = 2) (hc : s.headCntQ.toNat < 62) :
    (headCntNext s i).toNat = s.headCntQ.toNat + 2 := by
  have h2 : ((2 : BitVec 2).setWidth 6).toNat = 2 := rfl
  rw [headCntNext, hs, if_neg Bool.false_ne_true, headCntAdd, hl, BitVec.toNat_add, h2,
    Nat.mod_eq_of_lt (by omega)]

theorem Heading.not_doffV (h : Heading s ws) (hlt : ws.length < 7) : doffV s = false := by
  by_cases hne : ws = []
  · simp [doffV, h.head, hne]
  · have hcnt : ¬ s.headCntQ.toNat > 12 := by
      have := h.headCnt hne
      omega
    simp [doffV, hcnt]

theorem Heading.step (h : Heading s ws) (hb : beat i = some b) (hr : Regular ws b) :
    Heading (next true s i) (ws ++ [b.dataI]) := by
  obtain ⟨hv, rfl⟩ := beat_eq_some.1 hb
  obtain ⟨hs, hl, hlt⟩ := hr
  have hend : headEndV s b = false := by simp [headEndV, h.not_doffV hlt]
  have hlen : (ws ++ [b.dataI]).length = ws.length + 1 := by simp
  have hidle : s.fsmIdleQ = b.startI := by rw [h.idle, hs]
  have hhead : s.fsmHeadQ = !b.startI := by rw [h.head, hs, decide_not]
  have hne : ws ++ [b.dataI] ≠ [] := by simp
  constructor
  case idle =>
    rw [decide_eq_false hne]
    simp [next, fsmIdleNext, startV, hv, hidle, h.data]
  case head =>
    rw [decide_eq_true hne]
    simp [next, fsmHeadNext, startV, hv, hidle, hhead, hend]
  case data => simp [next, fsmDataNext, hend, h.data]
  case short => omega
  case headCnt =>
    intro _
    have hn : (next true s b).headCntQ = headCntNext s b := by simp [next, hv]
    rw [hn, hlen]
    by_cases hnil : ws = []
    · rw [headCntNext_start (by rw [hs, decide_eq_true hnil]) hl, hnil]
      rfl
    · have hcnt := h.headCnt hnil
      rw [headCntNext_add (by rw [hs, decide_eq_false hnil]) hl (by omega), hcnt]
      omega
  case srcPort =>
    apply h.srcPort.step
    · intro h0
      have hnil : ws = [] := List.eq_nil_of_length_eq_zero h0
      simp [next, srcPortEn, startV, hv, hs, hnil]
    · intro h0
      have hnil : ws ≠ [] := List.ne_nil_of_length_pos h0
      simp [next, srcPortEn, startV, hs, hnil]
  case dstPort => exact h.latch h.dstPort Nat.one_pos (dstPortQ_next s b)
  case seq => exact h.latch h.seq Nat.two_pos (seqQ_next s b)
  case ack => exact h.latch h.ack (Nat.succ_pos 3) (ackQ_next s b)

theorem follows : Follows machine collect beat (fun _ => none) Regular Heading where
  stall h hb := h.stall hb
  stall_out _ _ := rfl
  step h hb hr := h.step hb hr
  step_out _ _ _ := rfl

def beats (is : List In) : List In := is.filterMap beat

/-- The cycles of the header of a segment, from the start to the beat with its last byte, with
stalls anywhere. The data offset `d` is the high half of byte 12. -/
structure IsHeader (d : Nat) (is : List In) : Prop where
  five_le : 5 ≤ d
  le_fifteen : d ≤ 15
  length : (beats is).length = 2 * d
  start : ∀ k i, (beats is)[k]? = some i → i.startI = decide (k = 0)
  len : ∀ i ∈ beats is, i.lenI = 2
  offset : ∀ i ∈ (beats is)[6]?, ((lane0 i.dataI).extractLsb' 4 4).toNat = d
  ends : ∀ i ∈ is.getLast?, i.validI = true

def headerBytes (is : List In) : List Byte := (beats is).flatMap fun i => wordBytes i.dataI i.lenI

/-- Where the registers keep the bytes of a port and of a number. -/
structure ByteOrder where
  port : Equiv.Perm (Fin 2)
  number : Equiv.Perm (Fin 4)

def Field (order : Equiv.Perm (Fin m)) (q : BitVec n) (bs : List Byte) : Prop :=
  ∀ k : Fin m, bs[k.val]? = some (q.extractLsb' (8 * (order k).val) 8)

/-- The data state is entered with the last cycle and not before, and the registers then hold the
fields of the header. -/
structure Captured (o : ByteOrder) (s : State) (is : List In) : Prop where
  entered : (machine.run s is).fsmDataQ = true
  before : ∀ k < is.length, (machine.run s (is.take k)).fsmDataQ = false
  srcPort : Field o.port (machine.run s is).srcPortQ (headerBytes is)
  dstPort : Field o.port (machine.run s is).dstPortQ ((headerBytes is).drop 2)
  seq : Field o.number (machine.run s is).seqQ ((headerBytes is).drop 4)
  ack : Field o.number (machine.run s is).ackQ ((headerBytes is).drop 8)

theorem IsHeader.regular (h : IsHeader d is) :
    ∀ n ≤ 7, collect.Along Regular [] ((beats is).take n) := by
  intro n hn
  rw [Mealy.along_iff]
  intro pre i post hsplit
  have hlen : pre.length < n := by
    have := congrArg List.length hsplit
    rw [List.length_take, List.length_append, List.length_cons] at this
    omega
  have hget : (beats is)[pre.length]? = some i := by
    rw [← List.getElem?_take_of_lt hlen, hsplit]
    simp
  have hws : collect.run [] pre = pre.map In.dataI := by rw [collect_run, List.nil_append]
  refine ⟨?_, h.len i (List.mem_of_getElem? hget), ?_⟩
  · rw [hws, h.start _ i hget, decide_eq_decide, List.map_eq_nil_iff, List.length_eq_zero_iff]
  · rw [hws, List.length_map]
    omega

/-- The data state, with the words that have come. The numbers hold their first word twice. -/
structure Left (s : State) (ws : List Word) : Prop where
  head : s.fsmHeadQ = false
  data : s.fsmDataQ = true
  srcPort : Holds s.srcPortQ id ws 0
  dstPort : Holds s.dstPortQ id ws 1
  seq : Holds s.seqQ (fun w => w ++ w) ws 2
  ack : Holds s.ackQ (fun w => w ++ w) ws 4

theorem Holds.append (h : Holds q f ws k) (hk : k < ws.length) (us : List Word) :
    Holds q f (ws ++ us) k := by
  intro w hw
  rw [List.getElem?_append_left hk] at hw
  exact h w hw

/-- The eighth beat ends the header state: its sixteen bytes are no less than any number of words
that four bits hold. -/
theorem Heading.left (h : Heading s ws) (hlen : ws.length = 7) (hv : i.validI = true)
    (hs : i.startI = false) (hl : i.lenI = 2) : Left (next true s i) (ws ++ [i.dataI]) := by
  have hne : ws ≠ [] := List.ne_nil_of_length_pos (by omega)
  have hcnt : s.headCntQ.toNat = 14 := by rw [h.headCnt hne, hlen]
  have hhead : s.fsmHeadQ = true := by rw [h.head, decide_eq_true hne]
  have hdoff : s.doffQ.toNat ≤ (headCntNext s i).toNat := by
    have hadd := headCntNext_add hs hl (s := s) (by omega)
    have hlt := s.doffQ.isLt
    omega
  have hend : headEndV s i = true := by simp [headEndV, doffV, hv, hhead, hcnt, hdoff]
  constructor
  case head => simp [next, fsmHeadNext, startV, hs, hend]
  case data => simp [next, fsmDataNext, hhead, hend]
  case srcPort =>
    have hq : (next true s i).srcPortQ = s.srcPortQ := by simp [next, srcPortEn, startV, hs]
    rw [hq]
    exact h.srcPort.append (by omega) _
  case dstPort => exact (h.kept h.dstPort (dstPortQ_next s i)).append (by omega) _
  case seq => exact (h.kept h.seq (seqQ_next s i)).append (by omega) _
  case ack => exact (h.kept h.ack (ackQ_next s i)).append (by omega) _

theorem IsHeader.left (h : IsHeader d is) (hs : Idle s) :
    ∃ pre i post, is = pre ++ i :: post ∧ post ≠ [] ∧
      Left (machine.run s (pre ++ [i])) (((beats is).take 8).map In.dataI) := by
  have hlong := h.length
  have hfive := h.five_le
  have h7 : 7 < (beats is).length := by omega
  have hsplit : is.filterMap beat = (beats is).take 7 ++ (beats is)[7] :: (beats is).drop 8 := by
    rw [List.getElem_cons_drop h7, List.take_append_drop]
    rfl
  obtain ⟨pre, i, post, rfl, hpre, hi, hpost⟩ := exists_cycle hsplit
  refine ⟨pre, i, post, rfl, ?_, ?_⟩
  · rintro rfl
    have hdrop := congrArg List.length hpost
    rw [List.length_drop] at hdrop
    simp at hdrop
    omega
  · have hal := h.regular 7 (Nat.le_refl 7)
    rw [← hpre] at hal
    have hheading := follows.run hs.heading hal
    obtain ⟨hv, hb⟩ := beat_eq_some.1 hi
    have hget : (beats (pre ++ i :: post))[7]? = some i := by
      rw [List.getElem?_eq_getElem h7, hb]
    rw [hpre, collect_run, List.nil_append] at hheading
    have hleft := hheading.left (by simp; omega) hv (h.start 7 i hget)
      (h.len i (List.mem_of_getElem? hget))
    have htake : (beats (pre ++ i :: post)).take 8 =
        (beats (pre ++ i :: post)).take 7 ++ [i] := by
      rw [List.take_add_one, hget]
      rfl
    rw [Mealy.run_append, htake, List.map_append]
    exact hleft

/-- No state bit is set. -/
structure Dead (s : State) : Prop where
  idle : s.fsmIdleQ = false
  head : s.fsmHeadQ = false
  data : s.fsmDataQ = false

theorem dead_reset (s : State) (i : In) : Dead (reset s i) := ⟨rfl, rfl, rfl⟩

theorem Dead.step (h : Dead s) (i : In) : Dead (next true s i) where
  idle := by simp [next, fsmIdleNext, h.idle, h.data]
  head := by simp [next, fsmHeadNext, h.idle, h.head]
  data := by simp [next, fsmDataNext, h.head, h.data]

theorem Dead.run (h : Dead s) (is : List In) : Dead (machine.run s is) := by
  induction is generalizing s with
  | nil => exact h
  | cons i is ih => exact ih (h.step i)

/-- The reset leaves no state to start from. Even in its idle state the receiver takes the data
offset, a number of words, for a number of bytes, so no header is captured. -/
theorem never_captured (h : IsHeader d is) (o : ByteOrder) :
    (∀ s₀ i₀ past, ¬ Captured o (machine.run (reset s₀ i₀) past) is) ∧
      ∀ s, Idle s → ¬ Captured o s is := by
  constructor
  · intro s₀ i₀ past hc
    have hdead := ((dead_reset s₀ i₀).run past).run is
    exact Bool.false_ne_true (hdead.data.symm.trans hc.entered)
  · intro s hs hc
    obtain ⟨pre, i, post, rfl, hpost, hleft⟩ := h.left hs
    have hlt : pre.length + 1 < (pre ++ i :: post).length := by
      have := List.length_pos_iff.2 hpost
      simp
      omega
    have hbefore := hc.before _ hlt
    have htake : (pre ++ i :: post).take (pre.length + 1) = pre ++ [i] := by
      rw [List.take_length_add_append]
      rfl
    rw [htake] at hbefore
    exact Bool.false_ne_true (hbefore.symm.trans hleft.data)

def sampleHeader : List In := (List.range 10).map fun k =>
  { validI := true
    startI := k == 0
    dataI := if k = 6 then lanes 0x50 0x10 else BitVec.ofNat 16 (0x101 * k)
    lenI := 2
    dataEndV := false }

theorem isHeader_sampleHeader : IsHeader 5 sampleHeader where
  five_le := by decide
  le_fifteen := by decide
  length := by decide
  start := forall_getElem? (by decide)
  len := by decide
  offset := by decide
  ends := by decide

theorem never_captured_sample :
    ¬ Captured ⟨.refl _, .refl _⟩ (machine.run (reset default default) []) sampleHeader :=
  (never_captured isHeader_sampleHeader _).1 default default []

/-- The receiver is still in no state after the header. -/
theorem not_captured : IsHeader 5 sampleHeader ∧
    ∀ o : ByteOrder, ¬ Captured o (reset default default) sampleHeader := by
  refine ⟨isHeader_sampleHeader, fun o h => ?_⟩
  have hdata : (machine.run (reset default default) sampleHeader).fsmDataQ = false := by decide
  exact Bool.false_ne_true (hdata.symm.trans h.entered)

end LowLatencyEthernet.TcpRx
