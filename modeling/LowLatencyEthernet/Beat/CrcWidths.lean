import LowLatencyEthernet.Beat.CrcSegments
import LowLatencyEthernet.Rtl.CrcWide
import LowLatencyEthernet.Sync.Follows

namespace LowLatencyEthernet.CrcWide
set_option autoImplicit true

open Sync Lfsr
open Crc (poly crc32 crcO)

def beat (i : In w) : Option (In w) := if i.validI then some i else none

theorem beat_eq_some {i b : In w} (h : beat i = some b) : i.validI = true ∧ b = i := by
  unfold beat at h
  split at h
  · exact ⟨‹_›, (Option.some.inj h).symm⟩
  · cases h

theorem beat_eq_none {i : In w} (h : beat i = none) : i.validI = false := by
  unfold beat at h
  split at h
  · cases h
  · exact Bool.eq_false_iff.2 ‹_›

/-- The bytes of each beat are shifted in, after all ones on a start. -/
def register (w : Width) : Transducer (BitVec 32) (In w) Unit where
  next r i := i.bytes.foldl (absorb poly) (if i.startI then BitVec.allOnes 32 else r)
  out _ _ := none

theorem follows (w : Width) : Follows (machine w) (register w) beat (fun _ => none)
    (fun _ i => i.Driven) (fun s r => s.lfsrQ = r) where
  stall := by
    intro s r i hs hb
    change (if i.validI then lfsrNext s i else s.lfsrQ) = r
    rw [beat_eq_none hb, if_neg Bool.false_ne_true, hs]
  stall_out _ _ := rfl
  step := by
    intro s r i b hs hb hd
    obtain ⟨hv, rfl⟩ := beat_eq_some hb
    change (if b.validI then lfsrNext s b else s.lfsrQ) = _
    rw [hv, if_pos rfl, lfsrNext_eq s hd, lfsr, hs]
    rfl
  step_out _ _ _ := rfl

theorem run_register {is : List (In w)} (h : ∀ i ∈ is, i.startI = false) (r : BitVec 32) :
    (register w).run r is = (is.flatMap In.bytes).foldl (absorb poly) r := by
  induction is generalizing r with
  | nil => rfl
  | cons i is ih =>
    have hnext : (register w).next r i = i.bytes.foldl (absorb poly) r := by
      change i.bytes.foldl (absorb poly) (if i.startI then BitVec.allOnes 32 else r) = _
      rw [h i List.mem_cons_self, if_neg Bool.false_ne_true]
    rw [Mealy.run_cons, hnext, ih (fun j hj => h j (List.mem_cons_of_mem _ hj)), List.flatMap_cons,
      List.foldl_append]

theorem run_started {i : In w} {is : List (In w)} (hi : i.startI = true)
    (h : ∀ j ∈ is, j.startI = false)
    (r : BitVec 32) : (register w).run r (i :: is) = crc32 ((i :: is).flatMap In.bytes) := by
  have hnext : (register w).next r i = i.bytes.foldl (absorb poly) (BitVec.allOnes 32) := by
    change i.bytes.foldl (absorb poly) (if i.startI then BitVec.allOnes 32 else r) = _
    rw [hi, if_pos rfl]
  rw [Mealy.run_cons, hnext, run_register h, List.flatMap_cons, crc32, List.foldl_append]

/-- The valid cycles cut the string `bs` into beats of one byte, of two or of all lanes, with a
start on the first of them. -/
structure Cuts (is : List (In w)) (bs : List Byte) : Prop where
  bytes : (is.filterMap beat).flatMap In.bytes = bs
  driven : ∀ i ∈ is.filterMap beat, i.Driven
  start : ∀ k i, (is.filterMap beat)[k]? = some i → (i.startI = true ↔ k = 0)

theorem Cuts.run {is : List (In w)} (h : Cuts is bs) (hne : bs ≠ []) (s : Crc.State) :
    crcO ((machine w).run s is) = crc32 bs := by
  obtain ⟨hbytes, hdriven, hstart⟩ := h
  have hrun := (follows w).run (s := s) rfl (Mealy.along_of_forall _ (fun _ => hdriven) _)
  rw [crcO, hrun]
  generalize is.filterMap beat = bts at hbytes hstart
  cases bts with
  | nil => exact absurd hbytes.symm hne
  | cons i bts =>
    have hfirst : i.startI = true := (hstart 0 i rfl).2 rfl
    have hlater : ∀ j ∈ bts, j.startI = false := by
      intro j hj
      obtain ⟨k, hk⟩ := List.mem_iff_getElem?.1 hj
      rw [Bool.eq_false_iff]
      intro hjs
      exact absurd ((hstart (k + 1) j hk).1 hjs) (Nat.succ_ne_zero k)
    rw [run_started hfirst hlater, hbytes]

/-- However a string is cut into the beats of a wide instance, with stalls anywhere, the register
holds what the string leaves bit by bit, and what the narrow instance holds after any cut of it. -/
theorem crc_widths (s : Crc.State) (is : List (In w)) (t : Crc.State) (js : List Crc.In)
    (bs : List Byte) (hw : Cuts is bs) (hn : Crc.Cuts js bs) (hne : bs ≠ []) :
    crcO ((machine w).run s is) = crc32 bs ∧
      crcO ((machine w).run s is) = crcO (Crc.machine.run t js) := by
  have hwide := hw.run hne s
  refine ⟨hwide, hwide.trans ?_⟩
  exact (hn.run hne).symm

def sampleWide : List (In .w32) :=
  [⟨true, 4, true, 0x01020304, 0⟩, ⟨false, 1, true, 0x0506, 0⟩, ⟨true, 1, false, 0x05ff, 0⟩,
    ⟨true, 2, false, 0x0607, 0⟩]

def sampleNarrow : List Crc.In :=
  [⟨true, 2, true, 0x0102⟩, ⟨true, 1, false, 0x03ff⟩, ⟨true, 2, false, 0x0405⟩,
    ⟨true, 2, false, 0x0607⟩]

theorem crc_widths_sample :
    crcO ((machine .w32).run default sampleWide) = crc32 [1, 2, 3, 4, 5, 6, 7] ∧
      crcO ((machine .w32).run default sampleWide) =
        crcO (Crc.machine.run default sampleNarrow) := by
  have hdriven : ∀ i ∈ sampleWide.filterMap beat,
      i.lenI.toNat = 1 ∨ i.lenI.toNat = 2 ∨ i.lenI.toNat = Width.keepW .w32 := by
    decide
  apply crc_widths default sampleWide default sampleNarrow [1, 2, 3, 4, 5, 6, 7]
  · exact ⟨by decide, hdriven, forall_getElem? (by decide)⟩
  · exact ⟨by decide, by decide, forall_getElem? (by decide)⟩
  · decide

end LowLatencyEthernet.CrcWide
