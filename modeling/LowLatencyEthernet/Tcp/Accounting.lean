import Mathlib.Data.BitVec
import LowLatencyEthernet.Tcp.Lifecycle

namespace LowLatencyEthernet.TcpEntry
set_option autoImplicit true

open Sync

def sentSize (i : In) : BitVec 32 := if i.sentVI then i.sendSizeI.setWidth 32 else 0

def recSize (i : In) : BitVec 32 := if i.recVI then i.recSizeI.setWidth 32 else 0

/-- A request that opens the connection of a socket in the invalid state. -/
def Opens (s : State) (i : In) : Prop :=
  Codes bit s .invalid ∧ i.initVI = true ∧ i.cancelVI = false

/-- The request to open a connection changes no number: both end up as without it. -/
def Unmoved (s : State) (i : In) : Prop :=
  (next true s i).seqQ = (next true s { i with initVI := false }).seqQ ∧
    (next true s i).ackQ = (next true s { i with initVI := false }).ackQ

/-- Over the cycles `is` the numbers count what is sent and received from the request that opens a
connection on, and requests to a socket in use change neither. -/
structure Accounted (s : State) (is : List In) : Prop where
  sums : ∀ pre i mid post, is = pre ++ i :: (mid ++ post) → Opens (machine.run s pre) i →
    (machine.run s (pre ++ i :: mid)).seqQ = i.initSeqI + (mid.map sentSize).sum ∧
      (machine.run s (pre ++ i :: mid)).ackQ = (mid.map recSize).sum
  unmoved : ∀ pre i post, is = pre ++ i :: post → (machine.run s pre).invalidQ = false →
    i.initVI = true → Unmoved (machine.run s pre) i

/-- A request that loads the number the socket would have anyway, and no size that is not valid. -/
def Harmless (s : State) (i : In) : Prop :=
  i.initSeqI = (if i.sentVI then seqAdd s i else s.seqQ) ∧ (i.recVI = true ∨ i.recSizeI = 0)

/-- A socket in use gets harmless requests only. -/
def Spared (s : State) (i : In) : Prop :=
  s.invalidQ = false → i.initVI = true → Harmless s i

theorem setWidth_eq_zero (w : BitVec 16) : w.setWidth 32 = 0#32 ↔ w = 0#16 := by
  have hlt := w.isLt
  rw [← BitVec.toNat_inj, ← BitVec.toNat_inj, BitVec.toNat_setWidth]
  change w.toNat % 2 ^ 32 = 0 ↔ w.toNat = 0
  omega

theorem unmoved_iff (h : s.invalidQ = false) (hi : i.initVI = true) :
    Unmoved s i ↔ Harmless s i := by
  have hseq : (next true s i).seqQ = i.initSeqI := by
    simp [next, seqEn, seqNext, hi]
  have hseq' : (next true s { i with initVI := false }).seqQ =
      if i.sentVI then seqAdd s i else s.seqQ := by
    simp [next, seqEn, seqNext, seqAdd]
  have hack : (next true s i).ackQ = s.ackQ + i.recSizeI.setWidth 32 := by
    simp [next, ackEn, ackNext, ackAdd, hi, h]
  have hack' : (next true s { i with initVI := false }).ackQ =
      if i.recVI then s.ackQ + i.recSizeI.setWidth 32 else s.ackQ := by
    simp [next, ackEn, ackNext, ackAdd, h]
  rw [Unmoved, Harmless, hseq, hseq', hack, hack']
  apply and_congr_right
  intro _
  cases i.recVI with
  | true => simp
  | false => simp [setWidth_eq_zero]

/-- A socket in use, out of which no time-out leads. -/
def InUse (s : State) : Prop := s.invalidQ = false ∧ s.timeWaitQ = false

theorem InUse.next (h : InUse s) (i : In) : InUse (next true s i) := by
  constructor
  · simp [TcpEntry.next, invalidNext, h.1, h.2]
  · exact h.2

theorem Opens.next (h : Opens s i) : InUse (next true s i) ∧
    (TcpEntry.next true s i).seqQ = i.initSeqI ∧ (TcpEntry.next true s i).ackQ = 0 := by
  obtain ⟨hc, hi, _⟩ := h
  have hinv : s.invalidQ = true := hc.set
  have hwait : s.timeWaitQ = false := (hc .timeWait).trans rfl
  refine ⟨⟨?_, hwait⟩, ?_, ?_⟩
  · simp [TcpEntry.next, invalidNext, hi, hwait]
  · simp [TcpEntry.next, seqEn, seqNext, hi]
  · simp [TcpEntry.next, ackEn, ackNext, hi, hinv]

theorem InUse.step (h : InUse s) (hk : Spared s i) :
    (TcpEntry.next true s i).seqQ = s.seqQ + sentSize i ∧
      (TcpEntry.next true s i).ackQ = s.ackQ + recSize i := by
  have hplain : (TcpEntry.next true s { i with initVI := false }).seqQ = s.seqQ + sentSize i ∧
      (TcpEntry.next true s { i with initVI := false }).ackQ = s.ackQ + recSize i := by
    constructor
    · cases hs : i.sentVI <;> simp [TcpEntry.next, seqEn, seqNext, seqAdd, sentSize, hs]
    · cases hr : i.recVI <;> simp [TcpEntry.next, ackEn, ackNext, ackAdd, recSize, h.1, hr]
  cases hi : i.initVI with
  | true =>
    obtain ⟨hseq, hack⟩ := (unmoved_iff h.1 hi).2 (hk h.1 hi)
    rw [hseq, hack]
    exact hplain
  | false =>
    have he : { i with initVI := false } = i := by
      cases i
      cases hi
      rfl
    rwa [he] at hplain

theorem InUse.run {is : List In} (h : InUse s) (hk : machine.Along Spared s is) :
    (machine.run s is).seqQ = s.seqQ + (is.map sentSize).sum ∧
      (machine.run s is).ackQ = s.ackQ + (is.map recSize).sum := by
  induction is generalizing s with
  | nil => simp
  | cons i is ih =>
    obtain ⟨hseq, hack⟩ := h.step hk.1
    obtain ⟨hseqs, hacks⟩ := ih (h.next i) hk.2
    have hseq' : (machine.next s i).seqQ = s.seqQ + sentSize i := hseq
    have hack' : (machine.next s i).ackQ = s.ackQ + recSize i := hack
    rw [Mealy.run_cons, List.map_cons, List.map_cons, List.sum_cons, List.sum_cons,
      ← BitVec.add_assoc, ← BitVec.add_assoc, ← hseq', ← hack']
    exact ⟨hseqs, hacks⟩

/-- In every run, whatever comes in its cycles, the numbers are accounted for exactly if the
requests that come to a socket in use are harmless. -/
theorem accounted_iff (s : State) (is : List In) :
    Accounted s is ↔ machine.Along Spared s is := by
  constructor
  · intro h
    rw [Mealy.along_iff]
    intro pre i post hsplit hinv hi
    exact (unmoved_iff hinv hi).1 (h.unmoved pre i post hsplit hinv hi)
  · intro h
    constructor
    · rintro pre i mid post rfl ho
      rw [Mealy.along_append, Mealy.along_cons, Mealy.along_append] at h
      obtain ⟨huse, hseq, hack⟩ := ho.next
      have hrun := InUse.run huse h.2.2.1
      have hzero : 0 + (mid.map recSize).sum = (mid.map recSize).sum := BitVec.zero_add _
      rw [hseq, hack, hzero] at hrun
      rwa [Mealy.run_append]
    · intro pre i post hsplit hinv hi
      rw [Mealy.along_iff] at h
      exact (unmoved_iff hinv hi).2 (h pre i post hsplit hinv hi)

/-- A request right after a reset, which leaves the socket in no state. -/
theorem not_accounted :
    ¬ Accounted (reset default default) [{ openRequest with initSeqI := 5 }] := by
  rw [accounted_iff]
  rintro ⟨hs, _⟩
  have hseq : (5 : BitVec 32) = 0 := (hs rfl rfl).1
  exact absurd hseq (by decide)

end LowLatencyEthernet.TcpEntry
