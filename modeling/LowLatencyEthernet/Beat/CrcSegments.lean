import LowLatencyEthernet.Rtl.CrcSerial

namespace LowLatencyEthernet.Crc
set_option autoImplicit true

open Sync Lfsr

/-- The bytes a valid cycle carries, the high lane first. -/
def In.bytes (i : In) : List Byte := wordBytes (swapLanes i.dataI) i.lenI

/-- The valid cycles cut the string `bs` into beats of one or two bytes, with a start on the first
of them. -/
structure Cuts (is : List In) (bs : List Byte) : Prop where
  bytes : (is.filter In.validI).flatMap In.bytes = bs
  len : ∀ i ∈ is.filter In.validI, i.lenI = 1 ∨ i.lenI = 2
  start : ∀ k i, (is.filter In.validI)[k]? = some i → (i.startI = true ↔ k = 0)

theorem filter_stall (hv : i.validI = false) :
    (i :: is).filter In.validI = is.filter In.validI := by
  rw [List.filter_cons, hv, if_neg Bool.false_ne_true]

theorem filter_beat (hv : i.validI = true) :
    (i :: is).filter In.validI = i :: is.filter In.validI := by
  rw [List.filter_cons, hv, if_pos rfl]

theorem Cuts.stall (h : Cuts (i :: is) bs) (hv : i.validI = false) : Cuts is bs := by
  obtain ⟨hb, hl, hs⟩ := h
  rw [filter_stall hv] at hb hl hs
  exact ⟨hb, hl, hs⟩

theorem run_unstarted {is : List In} (hl : ∀ i ∈ is.filter In.validI, i.lenI = 1 ∨ i.lenI = 2)
    (hs : ∀ i ∈ is.filter In.validI, i.startI = false) :
    (machine.run s is).lfsrQ =
      ((is.filter In.validI).flatMap In.bytes).foldl (absorb poly) s.lfsrQ := by
  induction is generalizing s with
  | nil => rfl
  | cons i is ih =>
    cases hv : i.validI with
    | false =>
      rw [filter_stall hv] at hl hs ⊢
      have hq : (machine.next s i).lfsrQ = s.lfsrQ := lfsrQ_stall hv
      rw [Mealy.run_cons, ih hl hs, hq]
    | true =>
      rw [filter_beat hv] at hl hs ⊢
      have hreg : lfsr s i = s.lfsrQ := by
        rw [lfsr, hs i List.mem_cons_self, if_neg Bool.false_ne_true]
      have hq : (machine.next s i).lfsrQ = i.bytes.foldl (absorb poly) (lfsr s i) :=
        lfsrQ_next hv (hl i List.mem_cons_self)
      rw [Mealy.run_cons, ih (fun j hj => hl j (List.mem_cons_of_mem _ hj))
        (fun j hj => hs j (List.mem_cons_of_mem _ hj)), hq, hreg, List.flatMap_cons,
        List.foldl_append]

theorem Cuts.run {is : List In} (h : Cuts is bs) (hne : bs ≠ []) :
    (machine.run s is).lfsrQ = crc32 bs := by
  induction is generalizing s with
  | nil => exact absurd h.bytes.symm hne
  | cons i is ih =>
    cases hv : i.validI with
    | false => exact ih (h.stall hv)
    | true =>
      obtain ⟨hb, hl, hs⟩ := h
      rw [filter_beat hv] at hb hl hs
      have hlater : ∀ j ∈ is.filter In.validI, j.startI = false := by
        intro j hj
        obtain ⟨k, hk⟩ := List.mem_iff_getElem?.1 hj
        rw [Bool.eq_false_iff]
        intro hjs
        exact absurd ((hs (k + 1) j hk).1 hjs) (Nat.succ_ne_zero k)
      have hreg : lfsr s i = BitVec.allOnes 32 := by
        rw [lfsr, (hs 0 i rfl).2 rfl, if_pos rfl]
      have hq : (machine.next s i).lfsrQ = i.bytes.foldl (absorb poly) (lfsr s i) :=
        lfsrQ_next hv (hl i List.mem_cons_self)
      rw [Mealy.run_cons, run_unstarted (fun j hj => hl j (List.mem_cons_of_mem _ hj)) hlater, hq,
        hreg, ← List.foldl_append, ← List.flatMap_cons, hb]
      rfl

theorem lfsrNextArr1_eq_twice (r : BitVec 32) (d : Word) :
    lfsrNextArr1 r d = lfsrNextArr0 (lfsrNextArr0 r (lane1 d)) (lane0 d) := by
  rw [lfsrNextArr1_eq, lfsrNextArr0_eq, lfsrNextArr0_eq, absorb_word]

/-- However a string is cut into beats, with stalls anywhere, the register holds the check sequence
that the string has when it is shifted in bit by bit; a beat of two bytes counts as two of one. -/
theorem crc_segments (s : State) (is : List In) (bs : List Byte) (h : Cuts is bs)
    (hne : bs ≠ []) :
    crcO (machine.run s is) = crc32 bs ∧
      ∀ r d, lfsrNextArr1 r d = lfsrNextArr0 (lfsrNextArr0 r (lane1 d)) (lane0 d) :=
  ⟨h.run hne, lfsrNextArr1_eq_twice⟩

def sampleCycles : List In :=
  [⟨true, 2, true, 0x0102⟩, ⟨false, 1, true, 0x0403⟩, ⟨true, 1, false, 0x03ff⟩]

theorem crc_segments_sample :
    crcO (machine.run default sampleCycles) = crc32 [0x01, 0x02, 0x03] ∧
      ∀ r d, lfsrNextArr1 r d = lfsrNextArr0 (lfsrNextArr0 r (lane1 d)) (lane0 d) := by
  refine crc_segments default sampleCycles [0x01, 0x02, 0x03] ⟨by decide, by decide, ?_⟩ (by decide)
  intro k i hk
  match k with
  | 0 => cases hk; decide
  | 1 => cases hk; decide
  | k + 2 => cases hk

end LowLatencyEthernet.Crc
