import LowLatencyEthernet.Rtl.CrcSerial
import LowLatencyEthernet.Beat.MacFrames

namespace LowLatencyEthernet.MacRx
set_option autoImplicit true

open Sync Lfsr

def bytes (bs : List Beat) : List Byte := bs.flatMap fun b => wordBytes b.data b.len

def absorbBeat (reg : BitVec 32) (b : Beat) : BitVec 32 :=
  (wordBytes b.data b.len).foldl (absorb Crc.poly) reg

def errPort (o : Out) : Option Unit := if o.crcErrO then some () else none

/-- The phase and the register of the check. It tests the register a beat arrives at. -/
def checker (p : Params) : Transducer (Phase × BitVec 32) Beat Unit where
  next x b := (x.1.next p b, absorbBeat (if x.1 = .head 4 then BitVec.allOnes 32 else x.2) b)
  out x b := if x.2 != 0 && b.term then some () else none

def CheckOk (x : Phase × BitVec 32) (b : Beat) : Prop :=
  StartOk x.1 b ∧ (b.len = 1 ∨ b.len = 2)

structure CheckSim (p : Params) (s : State) (x : Phase × BitVec 32) : Prop where
  mac : Sim p s x.1
  reg : s.crc.lfsrQ = x.2

theorem Sim.crcStartV (h : Sim p s ph) : crcStartV s = decide (ph = .head 4) := by
  cases ph with
  | head k =>
    obtain ⟨_, hh, _, h1, h10, hc, _⟩ := h
    have hk : k = 1 ∨ k = 2 ∨ k = 3 ∨ k = 4 ∨ k = 5 ∨ k = 6 ∨ k = 7 ∨ k = 8 ∨ k = 9 ∨ k = 10 := by
      omega
    rcases hk with rfl | rfl | rfl | rfl | rfl | rfl | rfl | rfl | rfl | rfl <;>
      simp [MacRx.crcStartV, hh, hc]
  | invalid => simp [MacRx.crcStartV, h.2.1]
  | tci => simp [MacRx.crcStartV, h.2.1, h.2.2.2.2.1]
  | type => simp [MacRx.crcStartV, h.2.1, h.2.2.2.2.1]
  | data => simp [MacRx.crcStartV, h.2.1]

theorem check_follows (p : Params) :
    Follows (machine p) (checker p) beat errPort CheckOk (CheckSim p) where
  stall h hb := ⟨h.mac.stall hb, (Crc.lfsrQ_stall (beat_eq_none.1 hb)).trans h.reg⟩
  stall_out _ hb := by
    simp [errPort, machine, out, crcErrV, beat_eq_none.1 hb]
  step := by
    intro s x i b h hb hok
    refine ⟨h.mac.step hb hok.1, ?_⟩
    obtain ⟨hv, _, _, hd, _, hl⟩ := beat_eq_some.1 hb
    have hlen : (crcIn s i).lenI = 1 ∨ (crcIn s i).lenI = 2 := by
      rw [show (crcIn s i).lenI = b.len from hl]
      exact hok.2
    have hq := Crc.lfsrQ_next (s := s.crc) hv hlen
    have hreg : Crc.lfsr s.crc (crcIn s i) =
        if x.1 = .head 4 then BitVec.allOnes 32 else x.2 := by
      have hst : (crcIn s i).startI = decide (x.1 = .head 4) := h.mac.crcStartV
      rw [Crc.lfsr, hst, h.reg]
      simp
    have hdata : swapLanes (crcIn s i).dataI = b.data := (swapLanes_swapLanes i.dataI).trans hd
    rw [hreg, hdata, show (crcIn s i).lenI = b.len from hl] at hq
    exact hq
  step_out := by
    intro s x i b h hb hok
    obtain ⟨hv, _, _, _, ht, _⟩ := beat_eq_some.1 hb
    have herr : crcErrV s i = (x.2 != 0 && b.term) := by
      rw [crcErrV, crcZero, Crc.crcO, h.reg, hv, ht, Bool.and_true]
      rfl
    simp [errPort, machine, out, checker, herr]

/-- A frame of any length that is ended by a term, its beats full but for the last one. -/
structure Terminated (f : List Beat) : Prop extends Delimited f where
  uncancelled : ∀ b ∈ f, b.cancel = false
  full : ∀ b ∈ f, b.term = false → b.len = 2
  last : ∀ b ∈ f, b.term = true → b.len = 1 ∨ b.len = 2

def registerAt (reg : BitVec 32) (f : List Beat) (k : Nat) : BitVec 32 :=
  if 5 ≤ k then Crc.crc32 (bytes ((f.take k).drop 4)) else (f.take k).foldl absorbBeat reg

theorem phaseAt_eq_head (p : Params) (f : List Beat) (k : Nat) :
    phaseAt p f k = .head 4 ↔ k = 4 := by
  constructor
  · intro h
    rw [phaseAt] at h
    split at h
    · cases h
    split at h
    · cases h
      rfl
    split at h
    · cases h
    split at h <;> cases h
  · rintro rfl
    rfl

theorem bytes_append (bs cs : List Beat) : bytes (bs ++ cs) = bytes bs ++ bytes cs :=
  List.flatMap_append

theorem crc32_snoc (bs : List Beat) (b : Beat) :
    Crc.crc32 (bytes (bs ++ [b])) = absorbBeat (Crc.crc32 (bytes bs)) b := by
  rw [bytes_append, Crc.crc32, List.foldl_append]
  simp [bytes, absorbBeat, Crc.crc32]

theorem registerAt_succ (hk : k < f.length) : registerAt r f (k + 1) =
    absorbBeat (if k = 4 then BitVec.allOnes 32 else registerAt r f k) f[k] := by
  rw [registerAt, registerAt, List.take_succ_eq_append_getElem hk]
  rcases Nat.lt_trichotomy k 4 with h | rfl | h
  · rw [if_neg (by omega), if_neg (by omega), if_neg (by omega), List.foldl_append]
    rfl
  · have hnil : (f.take 4).drop 4 = [] := List.drop_eq_nil_of_le (List.length_take_le 4 f)
    have hlen : 4 ≤ (f.take 4).length := by
      rw [List.length_take]
      omega
    rw [if_pos (Nat.le_refl 5), if_pos rfl, List.drop_append_of_le_length hlen, hnil, crc32_snoc]
    rfl
  · have hlen : 4 ≤ (f.take k).length := by
      rw [List.length_take]
      omega
    rw [if_pos (by omega), if_neg (by omega), if_pos (by omega),
      List.drop_append_of_le_length hlen, crc32_snoc]

theorem Terminated.len (hf : Terminated f) (hb : b ∈ f) : b.len = 1 ∨ b.len = 2 := by
  cases ht : b.term with
  | true => exact hf.last b hb ht
  | false => exact .inr (hf.full b hb ht)

theorem Terminated.check_take (hf : Terminated f) (hk : k < f.length) :
    (checker p).Along CheckOk (.invalid, r) (f.take k) ∧
      (checker p).run (.invalid, r) (f.take k) = (phaseAt p f k, registerAt r f k) := by
  induction k with
  | zero => exact ⟨True.intro, rfl⟩
  | succ k ih =>
    have hk' : k < f.length := Nat.lt_of_succ_lt hk
    have hb : f[k]? = some f[k] := List.getElem?_eq_getElem hk'
    obtain ⟨hal, hrun⟩ := ih hk'
    have hphase := hf.run_take (p := p) hk
    rw [List.take_succ_eq_append_getElem hk', Mealy.run_append, hf.run_take hk'] at hphase
    rw [List.take_succ_eq_append_getElem hk', Mealy.along_append, Mealy.run_append, hrun]
    refine ⟨⟨hal, ⟨fun hs => ?_, hf.len (List.getElem_mem hk')⟩, True.intro⟩, ?_⟩
    · rw [(hf.start k _ hb).1 hs]
      rfl
    · have hreg := registerAt_succ (r := r) hk'
      simp only [Mealy.run_cons, Mealy.run_nil, checker, phaseAt_eq_head, hreg]
      exact congrArg (·, _) hphase

theorem drop_bytes (h : ∀ b ∈ f.take k, b.len = 2) : (bytes f).drop (2 * k) = bytes (f.drop k) := by
  induction k generalizing f with
  | zero => rfl
  | succ k ih =>
    cases f with
    | nil => rw [List.drop_nil, bytes, List.flatMap_nil, List.drop_nil]
    | cons b f =>
      have hb : b.len = 2 := h b List.mem_cons_self
      have hrest := ih fun c hc => h c (List.mem_cons_of_mem _ hc)
      have hbytes : bytes (b :: f) = lane0 b.data :: lane1 b.data :: bytes f := by
        rw [bytes, List.flatMap_cons, hb]
        rfl
      rw [hbytes, Nat.mul_succ, List.drop_succ_cons, List.drop_succ_cons, List.drop_succ_cons]
      exact hrest

theorem length_bytes (bs : List Beat) : (bytes bs).length ≤ 2 * bs.length := by
  induction bs with
  | nil => exact Nat.le_refl 0
  | cons b bs ih =>
    have hb : (wordBytes b.data b.len).length ≤ 2 := by
      rw [wordBytes, List.length_take]
      exact Nat.min_le_right _ _
    rw [bytes, List.flatMap_cons, List.length_append, List.length_cons]
    rw [bytes] at ih
    omega

theorem Terminated.drop_preamble (hf : Terminated f) : (bytes f).drop 8 = bytes (f.drop 4) := by
  by_cases h4 : f.length ≤ 4
  · have hlen := length_bytes f
    rw [List.drop_eq_nil_of_le h4, List.drop_eq_nil_of_le (by omega)]
    rfl
  · apply drop_bytes (k := 4)
    intro b hb
    obtain ⟨j, hj⟩ := List.mem_iff_getElem?.1 hb
    have hlt := (List.getElem?_eq_some_iff.1 hj).1
    rw [List.length_take] at hlt
    rw [List.getElem?_take_of_lt (by omega)] at hj
    apply hf.full b (List.mem_of_getElem? hj)
    cases ht : b.term with
    | false => rfl
    | true =>
      have hstop := (hf.stop j b hj).1 (.inr ht)
      omega

def topBytes (b : Beat) : BitVec 32 :=
  if b.len = 1 then lane0 b.data ++ 0#24 else lane0 b.data ++ lane1 b.data ++ 0#16

theorem topBytes_even (b : Beat) : (topBytes b).getLsbD 0 = false := by
  rw [topBytes]
  split
  · exact BitVec.getLsbD_append (x := lane0 b.data) (y := 0#24)
  · exact BitVec.getLsbD_append (x := lane0 b.data ++ lane1 b.data) (y := 0#16)

theorem absorbBeat_eq_zero (hl : b.len = 1 ∨ b.len = 2) :
    absorbBeat reg b = 0 ↔ reg = topBytes b := by
  have hp : Crc.poly.getLsbD 0 = true := by decide
  rcases hl with h | h
  · have hbeat : absorbBeat reg b = absorb Crc.poly reg (lane0 b.data) := by
      rw [absorbBeat, h]
      rfl
    rw [hbeat, topBytes, if_pos h]
    exact absorb_eq_zero (m := 8) (k := 24) hp
  · have hbeat : absorbBeat reg b = absorb Crc.poly reg (lane0 b.data ++ lane1 b.data) := by
      rw [absorbBeat, h, absorb_append]
      rfl
    have h1 : b.len ≠ 1 := by
      rw [h]
      decide
    rw [hbeat, topBytes, if_neg h1]
    exact absorb_eq_zero (m := 16) (k := 16) hp

/-- The cycles of a frame that is ended by a term, with stalls anywhere. -/
structure Arrival where
  front : List Beat
  lastBeat : Beat
  cycles : List In
  last : In
  whole : Terminated (front ++ [lastBeat])
  carriesFront : cycles.filterMap beat = front
  carriesLast : beat last = some lastBeat

/-- On the last beat of the frame `crc_err_o` tells whether the register is not zero after the bytes
that follow the preamble. -/
def Arrival.Checked (a : Arrival) (p : Params) (s : State) : Prop :=
  ((machine p).out ((machine p).run s a.cycles) a.last).crcErrO = true ↔
    Crc.crc32 ((bytes (a.front ++ [a.lastBeat])).drop 8) ≠ 0

namespace Arrival

variable (a : Arrival)

theorem term : a.lastBeat.term = true := by
  have hb : (a.front ++ [a.lastBeat])[a.front.length]? = some a.lastBeat := by simp
  have hstop := (a.whole.stop a.front.length a.lastBeat hb).2 (by simp)
  rcases hstop with hc | ht
  · rw [a.whole.uncancelled a.lastBeat (List.mem_of_getElem? hb)] at hc
    cases hc
  · exact ht

theorem crcErrO_iff (hs : Sim p s .invalid) :
    ((machine p).out ((machine p).run s a.cycles) a.last).crcErrO = true ↔
      registerAt s.crc.lfsrQ (a.front ++ [a.lastBeat]) a.front.length ≠ 0 := by
  have hlen : a.front.length < (a.front ++ [a.lastBeat]).length := by simp
  have htake : (a.front ++ [a.lastBeat]).take a.front.length = a.front := by simp
  obtain ⟨hal, hrun⟩ := a.whole.check_take (p := p) (r := s.crc.lfsrQ) hlen
  rw [htake] at hal hrun
  have hsim : CheckSim p s (.invalid, s.crc.lfsrQ) := ⟨hs, rfl⟩
  rw [← a.carriesFront] at hal
  have hafter := (check_follows p).run hsim hal
  rw [a.carriesFront, hrun] at hafter
  have hok : CheckOk (phaseAt p (a.front ++ [a.lastBeat]) a.front.length,
      registerAt s.crc.lfsrQ (a.front ++ [a.lastBeat]) a.front.length) a.lastBeat := by
    refine ⟨fun hst => ?_, a.whole.len (by simp)⟩
    rw [(a.whole.start a.front.length a.lastBeat (by simp)).1 hst]
    rfl
  have hout := (check_follows p).step_out hafter a.carriesLast hok
  simp only [checker, a.term, Bool.and_true] at hout
  rw [errPort] at hout
  cases he : ((machine p).out ((machine p).run s a.cycles) a.last).crcErrO with
  | true =>
    rw [he, if_pos rfl] at hout
    split at hout
    · simp_all
    · cases hout
  | false =>
    rw [he, if_neg Bool.false_ne_true] at hout
    split at hout
    · cases hout
    · simp_all

/-- The register after the bytes between the preamble and the last beat. -/
def frontCrc : BitVec 32 := Crc.crc32 ((bytes a.front).drop 8)

/-- The check is right when it tests bytes of this frame, and the last beat does not matter: it is
zero, or it neither finds the register at zero nor leaves it so. A frame without a beat before its
last one and after the preamble is checked against what the register held before. -/
def Decisive (s : State) : Prop :=
  if 5 ≤ a.front.length then
    topBytes a.lastBeat = 0 ∨ (a.frontCrc ≠ 0 ∧ a.frontCrc ≠ topBytes a.lastBeat)
  else a.front.foldl absorbBeat s.crc.lfsrQ ≠ 0

theorem front_full : ∀ b ∈ a.front, b.len = 2 := by
  intro b hb
  obtain ⟨j, hj⟩ := List.mem_iff_getElem?.1 hb
  have hlt : j < a.front.length := (List.getElem?_eq_some_iff.1 hj).1
  have hj' : (a.front ++ [a.lastBeat])[j]? = some b := by
    rwa [List.getElem?_append_left hlt]
  apply a.whole.full b (List.mem_of_getElem? hj')
  cases ht : b.term with
  | false => rfl
  | true =>
    have hstop := (a.whole.stop j b hj').1 (.inr ht)
    rw [List.length_append, List.length_singleton] at hstop
    omega

theorem frontCrc_eq : a.frontCrc = Crc.crc32 (bytes (a.front.drop 4)) := by
  have hfull : ∀ b ∈ a.front.take 4, b.len = 2 :=
    fun b hb => a.front_full b (List.mem_of_mem_take hb)
  rw [frontCrc, ← drop_bytes (k := 4) hfull]

/-- Without a full beat after the preamble the register cannot be zero. -/
theorem crc_short (h : a.front.length < 5) :
    Crc.crc32 ((bytes (a.front ++ [a.lastBeat])).drop 8) ≠ 0 := by
  have hone : BitVec.allOnes 32 ≠ 0 := by decide
  rw [a.whole.drop_preamble]
  by_cases h4 : a.front.length = 4
  · have hlast : (a.front ++ [a.lastBeat]).drop 4 = [a.lastBeat] := by
      rw [← h4, List.drop_left]
    have hcrc : Crc.crc32 (bytes [a.lastBeat]) = absorbBeat (BitVec.allOnes 32) a.lastBeat :=
      crc32_snoc [] a.lastBeat
    rw [hlast, hcrc, Ne, absorbBeat_eq_zero (a.whole.len (by simp))]
    intro he
    have hbit := topBytes_even a.lastBeat
    rw [← he] at hbit
    exact absurd hbit (by decide)
  · have hnil : (a.front ++ [a.lastBeat]).drop 4 = [] := by
      apply List.drop_eq_nil_of_le
      rw [List.length_append, List.length_singleton]
      omega
    rw [hnil]
    exact hone

theorem checked_iff (hs : Sim p s .invalid) : a.Checked p s ↔ a.Decisive s := by
  rw [Checked, a.crcErrO_iff hs, registerAt, List.take_left, Decisive]
  by_cases h5 : 5 ≤ a.front.length
  · have hcrc : Crc.crc32 ((bytes (a.front ++ [a.lastBeat])).drop 8) =
        absorbBeat a.frontCrc a.lastBeat := by
      rw [a.whole.drop_preamble, List.drop_append_of_le_length (by omega), crc32_snoc,
        ← a.frontCrc_eq]
    rw [if_pos h5, if_pos h5, hcrc, ← a.frontCrc_eq, not_iff_not,
      absorbBeat_eq_zero (a.whole.len (by simp))]
    constructor
    · intro h
      by_cases h0 : a.frontCrc = 0
      · exact .inl ((h.1 h0).symm.trans h0)
      · exact .inr ⟨h0, mt h.2 h0⟩
    · rintro (h0 | ⟨h0, ht⟩)
      · rw [h0]
      · exact iff_of_false h0 ht
  · rw [if_neg h5, if_neg h5]
    exact iff_true_right (a.crc_short (by omega))

end Arrival

/-- After frames and idle beats the check of a frame of any length is right exactly when it is
decisive. -/
theorem crc_err_iff (p : Params) (s₀ : State) (i₀ : In) (past : List (Reception p))
    (lead : {is : List In // ∀ b ∈ is.filterMap beat, Idle b}) (a : Arrival) :
    let s := (machine p).run (reset p s₀ i₀) (Reception.allCycles past ++ lead.1)
    a.Checked p s ↔ a.Decisive s := by
  intro s
  obtain ⟨hs, hrest⟩ := (follows p).after (rests p) (sim_reset p s₀ i₀) rfl past
  rw [hrest] at hs
  obtain ⟨hal, hrun, _⟩ := (rests p).gap rfl lead.2
  have hlead := (follows p).run hs hal
  rw [hrun, ← Mealy.run_append] at hlead
  exact a.checked_iff hlead

def feed (b : Beat) : In := ⟨b.cancel, true, b.data, b.start, b.term, b.len⟩

def Arrival.ofWords (ws : List Word) (w : Word) : Arrival where
  front := (framed (ws ++ [w]) 2).take ws.length
  lastBeat := ⟨false, decide (ws.length = 0), w, true, 2⟩
  cycles := ((framed (ws ++ [w]) 2).take ws.length).map feed
  last := feed ⟨false, decide (ws.length = 0), w, true, 2⟩
  whole := by
    have hlt : ws.length < (framed (ws ++ [w]) 2).length := by simp
    have hget : (framed (ws ++ [w]) 2)[ws.length] =
        ⟨false, decide (ws.length = 0), w, true, 2⟩ := by
      simp [framed]
    rw [← hget, ← List.take_succ_eq_append_getElem hlt, List.take_of_length_le (by simp)]
    refine ⟨framed_delimited _ _ (by simp), fun b => cancel_framed, fun b hb ht => ?_,
      fun b hb ht => .inr (len_framed hb ht)⟩
    obtain ⟨k, hk⟩ := List.mem_iff_getElem?.1 hb
    obtain ⟨v, rfl⟩ := getElem?_framed hk
    exact if_neg (of_decide_eq_false ht)
  carriesFront := by
    rw [List.filterMap_map]
    exact List.filterMap_some
  carriesLast := rfl

/-- A frame with the check sequence that leaves the register at zero. -/
def goodArrival : Arrival :=
  .ofWords
    [0x5555, 0x5555, 0x5555, 0xd555, 0x0102, 0x0304, 0x0506, 0x1112, 0x1314, 0x1516, 0x0008,
      0x0045, 0x1d00, 0x0000, 0x0040, 0x1140, 0xce26, 0x000a, 0x0100, 0x000a, 0x0200,
      0x3412, 0x7856, 0x0900, 0x0000, 0x0041, 0x0464] 0xbd75

/-- The check finds fault with the good frame. -/
theorem crc_err_fails :
    Crc.crc32 ((bytes (goodArrival.front ++ [goodArrival.lastBeat])).drop 8) = 0 ∧
      ¬ goodArrival.Checked ⟨true⟩ (reset ⟨true⟩ default default) := by
  constructor
  · decide +kernel
  · rw [goodArrival.checked_iff (sim_reset ⟨true⟩ default default), Arrival.Decisive]
    decide +kernel

end LowLatencyEthernet.MacRx
