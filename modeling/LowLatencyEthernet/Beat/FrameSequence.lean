import LowLatencyEthernet.Beat.Transmissions

namespace LowLatencyEthernet.EthTx
set_option autoImplicit true

open Sync Lfsr

variable {p : Params} {maskO : BitVec 2 → BitVec 2} {s : State p}

theorem crcBytes_inj (h : crcBytes c = crcBytes d) : c = d := by
  have hsplit (c : BitVec 32) : c = c.extractLsb' 24 8 ++ (c.extractLsb' 16 8 ++
      (c.extractLsb' 8 8 ++ c.extractLsb' 0 8)) := by
    have h16 : c.extractLsb' 8 8 ++ c.extractLsb' 0 8 = c.extractLsb' 0 16 :=
      BitVec.extractLsb'_append_extractLsb'_eq_extractLsb' rfl
    have h24 : c.extractLsb' 16 8 ++ c.extractLsb' 0 16 = c.extractLsb' 0 24 :=
      BitVec.extractLsb'_append_extractLsb'_eq_extractLsb' rfl
    have h32 : c.extractLsb' 24 8 ++ c.extractLsb' 0 24 = c.extractLsb' 0 32 :=
      BitVec.extractLsb'_append_extractLsb'_eq_extractLsb' rfl
    rw [h16, h24, h32]
    exact BitVec.extractLsb'_eq_self.symm
  simp only [crcBytes, List.cons.injEq, and_true] at h
  obtain ⟨h0, h1, h2, h3⟩ := h
  rw [hsplit c, hsplit d, h0, h1, h2, h3]

theorem crc32_wordBytes_inj (hlen : len = 1 ∨ len = 2)
    (h : Crc.crc32 (bs ++ wordBytes v len) = Crc.crc32 (bs ++ wordBytes w len)) :
    wordBytes v len = wordBytes w len := by
  have hp : Crc.poly.getLsbD 0 = true := by decide
  have hone (r : BitVec 32) (w : Word) :
      (wordBytes w 1).foldl (absorb Crc.poly) r = absorb Crc.poly r (lane0 w) := rfl
  have htwo (r : BitVec 32) (w : Word) :
      (wordBytes w 2).foldl (absorb Crc.poly) r = absorb Crc.poly r (lane0 w ++ lane1 w) := by
    rw [absorb_append]
    rfl
  rw [Crc.crc32, Crc.crc32, List.foldl_append, List.foldl_append] at h
  rcases hlen with rfl | rfl
  · rw [hone, hone] at h
    have hlow : lane0 v = lane0 w := absorb_inj (m := 8) (k := 24) hp h
    change [lane0 v] = [lane0 w]
    rw [hlow]
  · rw [htwo, htwo] at h
    have hboth : lane0 v ++ lane1 v = lane0 w ++ lane1 w := absorb_inj (m := 16) (k := 16) hp h
    have hhigh := congrArg lane1 hboth
    have hlow := congrArg lane0 hboth
    rw [lane1_append, lane1_append] at hhigh
    rw [lane0_append, lane0_append] at hlow
    change [lane0 v, lane1 v] = [lane0 w, lane1 w]
    rw [hhigh, hlow]

namespace Transmission

/-- The bytes on the wire through the last byte of payload. -/
def dataBytes (t : Transmission p) : List Byte := wireBytes (headWords t.init) ++ t.payload

/-- The bytes the register takes, in the order it takes them: from byte 6 on, the two bytes of each
word swapped, and without the last beat. -/
def taken (t : Transmission p) : List Byte :=
  (t.frontWords.drop 3).flatMap fun w => [lane1 w, lane0 w]

/-- The check sequence covers the bytes from `o` through the last one of payload, and follows that
one directly. -/
def Checked (t : Transmission p) (maskO : BitVec 2 → BitVec 2) (s : State p) (o : Nat) : Prop :=
  let wire := wireBytes (delivered (machine p maskO) port s t.cycles)
  (wire.drop (headN p + t.payload.length)).take 4 =
    crcBytes (Crc.crc32 ((wire.take (headN p + t.payload.length)).drop o))

/-- What the bytes taken and those to be covered differ by. -/
noncomputable def difference (t : Transmission p) (o : Nat) : Polynomial (ZMod 2) :=
  Crc.dividend t.taken + Crc.dividend (t.dataBytes.drop o)

theorem reg_eq (t : Transmission p) : t.reg = Crc.crc32 t.taken := by
  have hfold (ws : List Word) (r : BitVec 32) :
      absorbWords r ws = (ws.flatMap fun w => [lane1 w, lane0 w]).foldl (absorb Crc.poly) r := by
    induction ws generalizing r with
    | nil => rfl
    | cons w ws ih =>
      rw [List.flatMap_cons, List.foldl_append, ← ih, absorbWords, List.foldl_cons, Crc.absorb_word]
      rfl
  exact hfold _ _

theorem length_dataBytes (t : Transmission p) :
    t.dataBytes.length = headN p + t.payload.length := by
  rw [dataBytes, List.length_append, length_wireBytes, length_headWords]
  rcases headN_cases p with h | h <;> omega

theorem wire_eq (t : Transmission p) (hmask : LenToMask maskO) (h : Idle s) :
    ∃ fill, fill.length ≤ 1 + 2 * t.excess ∧
      wireBytes (delivered (machine p maskO) port s t.cycles) =
        t.dataBytes ++ (crcBytes t.reg ++ fill) := by
  obtain ⟨_, rest, hrest, hsent⟩ := t.sent hmask h
  obtain ⟨fill, hlen, hfill⟩ :=
    wireBytes_closing t.last_len t.last.appDataI t.reg t.last.x.crcRawShifted
  refine ⟨fill ++ wireBytes rest, ?_, ?_⟩
  · rw [List.length_append, length_wireBytes, hrest]
    exact Nat.add_le_add_right hlen _
  rw [hsent, wireBytes_append, wireBytes_append, hfill, frontWords, wireBytes_append, dataBytes,
    payload]
  simp only [List.append_assoc]

theorem dvd_difference_iff (t : Transmission p) (o : Nat) : generator Crc.poly ∣ t.difference o ↔
    Crc.crc32 t.taken = Crc.crc32 (t.dataBytes.drop o) := Crc.crc32_eq_iff.symm

theorem checked_iff_crc32 (t : Transmission p) (hmask : LenToMask maskO) (h : Idle s) (o : Nat) :
    t.Checked maskO s o ↔ Crc.crc32 t.taken = Crc.crc32 (t.dataBytes.drop o) := by
  obtain ⟨fill, _, hwire⟩ := t.wire_eq hmask h
  have hlen := t.length_dataBytes
  have hfour : (crcBytes t.reg ++ fill).take 4 = crcBytes t.reg := List.take_left' rfl
  rw [Checked, hwire, List.drop_left' hlen, List.take_left' hlen, hfour, ← reg_eq]
  constructor
  · exact crcBytes_inj
  · intro he
    rw [he]

/-- After the same words, the check sequence is right for at most one last beat. -/
theorem last_unique (t u : Transmission p) (hfront : t.frontWords = u.frontWords)
    (hlen : t.last.appLenI = u.last.appLenI) (ho : o ≤ headN p)
    (ht : generator Crc.poly ∣ t.difference o) (hu : generator Crc.poly ∣ u.difference o) :
    wordBytes t.last.appDataI t.last.appLenI = wordBytes u.last.appDataI u.last.appLenI := by
  have hdata (t : Transmission p) : t.dataBytes.drop o = (wireBytes t.frontWords).drop o ++
      wordBytes t.last.appDataI t.last.appLenI := by
    have hle : o ≤ (wireBytes t.frontWords).length := by
      rw [length_wireBytes, frontWords, List.length_append, length_headWords]
      rcases headN_cases p with h | h <;> omega
    rw [← List.drop_append_of_le_length hle, frontWords, wireBytes_append, dataBytes, payload,
      List.append_assoc]
  have htaken : t.taken = u.taken := by rw [taken, taken, hfront]
  have heq := ((t.dvd_difference_iff o).1 ht).symm.trans
    ((congrArg Crc.crc32 htaken).trans ((u.dvd_difference_iff o).1 hu))
  rw [hdata, hdata, hfront, hlen] at heq
  rw [hlen]
  exact crc32_wordBytes_inj u.last_len heq

end Transmission

/-- After any packets, the check sequence of a packet is right exactly when what the register has
taken and what it should have covered differ by a multiple of the generator. -/
theorem fcs_iff (p : Params) (maskO : BitVec 2 → BitVec 2) (hmask : LenToMask maskO)
    (s₀ : State p) (i₀ : In) (past : List (Transmission p)) (t : Transmission p) (o : Nat) :
    t.Checked maskO ((machine p maskO).run (reset s₀ i₀) (Transmission.allCycles past)) o ↔
      generator Crc.poly ∣ t.difference o := by
  rw [t.dvd_difference_iff]
  exact t.checked_iff_crc32 hmask (Transmission.idle_after hmask (idle_reset s₀ i₀)) o

def lenToMask (len : BitVec 2) : BitVec 2 :=
  BitVec.ofBool (decide (1 < len.toNat)) ++ BitVec.ofBool (decide (0 < len.toNat))

theorem lenToMask_spec : LenToMask lenToMask := by
  intro len i hi
  have h : ∀ len : BitVec 2, (lenToMask len).getLsbD 0 = decide (0 < len.toNat) ∧
      (lenToMask len).getLsbD 1 = decide (1 < len.toNat) := by decide
  rcases i with _ | _ | i
  · exact (h len).1
  · exact (h len).2
  · omega

def sampleParams : Params :=
  ⟨true, false, 18170, 18170, 0xcec87f80, 0xcec87f80, 0xf82f08, 0xfcd4f2⟩

def quietIn : In := ⟨false, false, 0, 0, 2, false, false, 0, 0, true, default⟩

instance : Decidable (Live i) := inferInstanceAs (Decidable (_ ∧ _))

/-- Two beats of payload. The last block starts after the first one. -/
def sample (p : Params) (hv : p.vlanTag = true) (a b : Word) : Transmission p where
  idle := [quietIn]
  request := { quietIn with appEarlyVI := true, appPktLenI := 4 }
  head := List.replicate 27 quietIn
  front := [{ quietIn with appDataI := a, appLastBlockNextI := true, appLastBlockNextLenI := 2 }]
  last := { quietIn with appDataI := b, appLastI := true }
  foot := [quietIn, quietIn]
  excess := 0
  live := by simp [Live, quietIn]
  idle_ne := List.cons_ne_nil _ _
  idle_quiet := by simp [quietIn]
  request_early := rfl
  head_length := by simp [headN, MacHeadTx.headN, macParams, hv]
  not_last := by simp [quietIn]
  last_last := rfl
  last_len := .inr rfl
  announced := ⟨[], _, [_], rfl, rfl, by simp [quietIn], by simp [payloadLen, quietIn],
    by simp [payloadLen, quietIn]⟩
  foot_length := rfl

theorem fcs_iff_sample : (sample sampleParams rfl 0xa925 0x130b).Checked lenToMask
    ((machine sampleParams lenToMask).run (reset default default)
      (Transmission.allCycles (p := sampleParams) [])) 36 := by
  have hcrc : Crc.crc32 (sample sampleParams rfl 0xa925 0x130b).taken =
      Crc.crc32 ((sample sampleParams rfl 0xa925 0x130b).dataBytes.drop 36) := by decide +kernel
  exact (fcs_iff sampleParams lenToMask lenToMask_spec default default [] _ 36).2
    ((Transmission.dvd_difference_iff _ 36).2 hcrc)

/-- That of the bytes `11 22 33 44` is not, be the first bytes on the wire taken for the preamble
or those that come before the addresses. -/
theorem fcs_fails :
    ¬ (sample sampleParams rfl 0x2211 0x4433).Checked lenToMask (reset default default) 8 ∧
      ¬ (sample sampleParams rfl 0x2211 0x4433).Checked lenToMask (reset default default) 36 := by
  have hidle := idle_reset (p := sampleParams) default default
  constructor
  · rw [Transmission.checked_iff_crc32 _ lenToMask_spec hidle]
    decide +kernel
  · rw [Transmission.checked_iff_crc32 _ lenToMask_spec hidle]
    decide +kernel

end LowLatencyEthernet.EthTx
