import LowLatencyEthernet.Beat.FrameSequence
import LowLatencyEthernet.Tb.SimpleTx

namespace LowLatencyEthernet.SimpleTx
set_option autoImplicit true

open Sync EthTx Lfsr

variable {p : Params} {maskO : BitVec 2 → BitVec 2} {s : State p} {l : Nat}

theorem crcRawShifted_next (h : i.appLenI = 2) :
    (next true s i).crcRawShifted = crcRaw (next true s i) := by
  rw [next, settle, crcRawShifted, h]
  rfl

theorem crcRawShifted_run {is : List In} (h : s.crcRawShifted = crcRaw s)
    (maskO : BitVec 2 → BitVec 2) (hl : ∀ i ∈ is, i.appLenI = 2) :
    ((machine p maskO).run s is).crcRawShifted = crcRaw ((machine p maskO).run s is) := by
  induction is generalizing s with
  | nil => exact h
  | cons i is ih =>
    have hnext := crcRawShifted_next (s := s) (hl i List.mem_cons_self)
    exact ih hnext fun j hj => hl j (List.mem_cons_of_mem _ hj)

theorem last_empty (maskO : BitVec 2 → BitVec 2) (h : InData s) (hopen : s.crcRawShifted = crcRaw s)
    (hc : i.appCancelI = false) (ho : i.appLastI = true) (hlen : i.appLenI = 0) :
    ∃ w, port (out maskO s i) = some w ∧
      AtFoot (crcRaw s) (footCnt s.footCntQ [i]) (next true s i) := by
  obtain ⟨hi, hh, hd, hf⟩ := id h
  have hlatch : crcRawShifted s i = crcRaw s := by
    rw [← hopen]
    simp [crcRawShifted, hlen]
  refine ⟨dataLast (maskO i.appLenI) s i, ?_, ?_, ?_, h.footCntNext⟩
  · simp [port, out, dataV, data, gated, hh, hd, hf, ho]
  · simp [next, fsmIdleNext, fsmHeadNext, fsmDataNext, fsmFootNext, hi, hh, hd, hf, hc, ho]
  · simp [next, crcNext, crcRst, hd, ho, hlatch]

/-- The footer with any counter, also one that it finds run down. -/
theorem foot_leaves {is : List In} (h : AtFoot c n s) (maskO : BitVec 2 → BitVec 2)
    (hl : ∀ i ∈ is, i.appCancelI = false) (hn : is.length = max 1 ((n.toNat + 1) / 2)) :
    Idle ((machine p maskO).run s is) ∧ ∃ rest, is.length ≤ rest.length + 2 ∧
      delivered (machine p maskO) port s is =
        (c.extractLsb' 0 16 :: c.extractLsb' 16 16 :: rest).take is.length := by
  by_cases h2 : n.toNat ≤ 2
  · obtain ⟨i, rfl⟩ := List.length_eq_one_iff.1 (by omega : is.length = 1)
    have hout : port ((machine p maskO).out s i) = some (c.extractLsb' 0 16) := h.sends
    refine ⟨h.finish (hl i List.mem_cons_self) h2, [], Nat.le_succ 1, ?_⟩
    rw [delivered_cons, hout]
    rfl
  · obtain ⟨hidle, rest, hrest, hsent⟩ := h.halves maskO hl (by omega) (by omega)
    refine ⟨hidle, rest, by omega, ?_⟩
    rw [hsent, List.take_of_length_le]
    rw [List.length_cons, List.length_cons]
    omega

theorem wireBytes_take (ws : List Word) (k : Nat) : wireBytes (ws.take k) <+: wireBytes ws := by
  conv => rhs; rw [← List.take_append_drop k ws, wireBytes_append]
  exact List.prefix_append _ _

theorem leaves_after (maskO : BitVec 2 → BitVec 2) (hw : port (out maskO s i) = some w)
    (h : AtFoot r n (next true s i)) {is : List In} (hl : ∀ i ∈ is, i.appCancelI = false)
    (hn : is.length = max 1 ((n.toNat + 1) / 2)) :
    Idle ((machine p maskO).run s (i :: is)) ∧
    (delivered (machine p maskO) port s (i :: is)).length = is.length + 1 ∧
    ∃ stray, wireBytes (delivered (machine p maskO) port s (i :: is)) <+:
      wireBytes [w, r.extractLsb' 0 16, r.extractLsb' 16 16] ++ stray := by
  obtain ⟨hidle, rest, hlong, hfoot⟩ := foot_leaves h maskO hl hn
  have hw : port ((machine p maskO).out s i) = some w := hw
  have hsent : delivered (machine p maskO) port s (i :: is) =
      ([w, r.extractLsb' 0 16, r.extractLsb' 16 16] ++ rest).take (is.length + 1) := by
    rw [delivered_cons, hw]
    exact congrArg (w :: ·) hfoot
  refine ⟨hidle, ?_, wireBytes rest, ?_⟩
  · rw [hsent, List.length_take, List.length_append]
    change min _ (3 + rest.length) = _
    omega
  · rw [hsent, ← wireBytes_append]
    exact wireBytes_take _ _

theorem crcBytes_halves (r : BitVec 32) :
    wireBytes [r.extractLsb' 0 16, r.extractLsb' 16 16] = crcBytes r := by
  have hsplit : wireBytes [r.extractLsb' 0 16, r.extractLsb' 16 16] =
    wireBytes [r.extractLsb' 0 16] ++ wireBytes [r.extractLsb' 16 16] := rfl
  rw [hsplit, wireBytes_extractLsb', wireBytes_extractLsb']
  rfl

theorem last_foot (hmask : LenToMask maskO) (h : InData s) (hopen : s.crcRawShifted = crcRaw s)
    (g : Signals) (c : Choice) {is : List In} (hl : ∀ i ∈ is, i.appCancelI = false)
    (hn : is.length = max 1 (((s.footCntQ - 2).toNat + 1) / 2)) :
    Idle ((machine p maskO).run s (Bench.put ⟨.sent, sendLast l c g⟩ c :: is)) ∧
    (delivered (machine p maskO) port s (Bench.put ⟨.sent, sendLast l c g⟩ c :: is)).length =
      is.length + 1 ∧
    ∃ gap stray, gap.length = 2 * (1 - l % keepW) ∧
      wireBytes (delivered (machine p maskO) port s
          (Bench.put ⟨.sent, sendLast l c g⟩ c :: is)) <+:
        [lane0 c.random].take (l % keepW) ++ gap ++ crcBytes (crcRaw s) ++ stray := by
  have hcnt : footCnt s.footCntQ [Bench.put ⟨.sent, sendLast l c g⟩ c] = s.footCntQ - 2 := rfl
  have hpar : l % keepW = 0 ∨ l % keepW = 1 := Nat.mod_two_eq_zero_or_one l
  have hlen : (Bench.put ⟨.sent, sendLast l c g⟩ c).appLenI = BitVec.ofNat 2 (l % keepW) := rfl
  rcases hpar with hpar | hpar
  · rw [hpar] at hlen
    obtain ⟨w, hw, hfoot⟩ := last_empty maskO h hopen rfl rfl hlen
    rw [hcnt] at hfoot
    obtain ⟨hidle, hcount, stray, hsent⟩ := leaves_after maskO hw hfoot hl hn
    refine ⟨hidle, hcount, wireBytes [w], stray, ?_, ?_⟩
    · rw [hpar]
      rfl
    · rw [hpar, List.take_zero, List.nil_append, ← crcBytes_halves]
      exact hsent
  · have hdata : (Bench.put ⟨.sent, sendLast l c g⟩ c).appDataI =
        lanes (lane0 c.random) (lane1 c.appDataI) := by
      simp [Bench.put, sendLast, hpar]
    rw [hpar] at hlen
    obtain ⟨r, hfoot, hlast⟩ := InData.last hmask h (i := Bench.put ⟨.sent, sendLast l c g⟩ c) rfl
      rfl (.inl hlen)
    rw [hcnt] at hfoot
    generalize Bench.put ⟨.sent, sendLast l c g⟩ c = i at *
    have hlen : i.appLenI = 1 := hlen
    cases hw : port (out maskO s i) with
    | none =>
      have hthree := congrArg List.length hlast
      rw [hw, closing, if_pos hlen] at hthree
      change 2 = 3 at hthree
      omega
    | some w =>
      obtain ⟨hidle, hcount, stray, hsent⟩ := leaves_after maskO hw hfoot hl hn
      obtain ⟨fill, _, hclose⟩ := wireBytes_closing (.inl hlen) i.appDataI (crcRaw s)
        i.x.crcRawShifted
      have hwords : wireBytes [w, r.extractLsb' 0 16, r.extractLsb' 16 16] = _ :=
        (congrArg wireBytes ((congrArg (Option.toList · ++ _) hw).symm.trans hlast)).trans hclose
      rw [hwords, hdata, hlen] at hsent
      refine ⟨hidle, hcount, [], fill ++ stray, ?_, ?_⟩
      · rw [hpar]
        rfl
      · rw [hpar, List.append_nil, ← List.append_assoc]
        rw [wordBytes, lane0_lanes] at hsent
        exact hsent

def choices (c : Nat → Choice) (k n : Nat) : List Choice := (List.range n).map fun j => c (k + j)

theorem choices_add (c : Nat → Choice) (k m n : Nat) :
    choices c k (m + n) = choices c k m ++ choices c (k + m) n := by
  rw [choices, List.range_add, List.map_append, List.map_map]
  simp only [choices, Function.comp_def, Nat.add_assoc]

theorem choices_one (c : Nat → Choice) (k : Nat) : choices c k 1 = [c k] := rfl

theorem length_choices (c : Nat → Choice) (k n : Nat) : (choices c k n).length = n := by
  rw [choices, List.length_map, List.length_range]

def dataStart (p : Params) : Nat := 1 + headN p / 2

def words (p : Params) (c : Nat → Choice) (n : Nat) : List Word :=
  (choices c (dataStart p) n).map Choice.random

def payload (p : Params) (l : Nat) (c : Nat → Choice) : List Byte :=
  (wireBytes (words p c (l / keepW + 1))).take l

/-- The register after the headers and words of data. -/
def regAfter (p : Params) (init : BitVec (8 * headN p)) (c : Nat → Choice) (n : Nat) : BitVec 32 :=
  absorbWords (BitVec.allOnes 32) ((headWords init ++ words p c n).drop 3)

/-- Cycles of the footer. Nothing but the length sets its counter `n`, and only when the last block
is announced. -/
def footCycles (p : Params) (l : Nat) (n : BitVec 4) : Nat :=
  if 2 ≤ l % blockN then 2 + l % keepW
  else max 1 (((n - BitVec.ofNat 4 (headN p + 4 + 2 * (l / keepW))).toNat + 1) / 2)

def cycles (maskO : BitVec 2 → BitVec 2) (s : State p) (l : Nat) (g : Signals) (c : Nat → Choice) :
    List In :=
  drives maskO l (call l g) s
    (choices c 0 (dataStart p + (l / keepW + 1) + footCycles p l s.footCntQ))

/-- A call of the task with `l` finds the transmitter in state `s`: the headers and the data leave,
and the check sequence follows the data if `l` is odd, though it does not cover the last byte. If it
is even two bytes come between them, and the sequence covers all of the data. What follows fills up
the footer, which can also end too early. -/
structure Sent (maskO : BitVec 2 → BitVec 2) (s : State p) (l : Nat) (g : Signals)
    (c : Nat → Choice) : Prop where
  idle : Idle ((machine p maskO).run s (cycles maskO s l g c))
  dense : (delivered (machine p maskO) port s (cycles maskO s l g c)).length =
    headN p / 2 + (l / keepW + 1) + footCycles p l s.footCntQ
  bytes : ∃ gap stray, gap.length = 2 * (1 - l % keepW) ∧
    wireBytes (delivered (machine p maskO) port s (cycles maskO s l g c)) <+:
      wireBytes (headWords (headInit p ((call l g).put (c 0)))) ++ payload p l c ++ gap ++
        crcBytes (regAfter p (headInit p ((call l g).put (c 0))) c (l / keepW)) ++ stray

theorem length_words (c : Nat → Choice) (n : Nat) : (words p c n).length = n := by
  rw [words, List.length_map, length_choices]

theorem regAfter_zero (init : BitVec (8 * headN p)) (c : Nat → Choice) :
    regAfter p init c 0 = absorbWords (BitVec.allOnes 32) ((headWords init).drop 3) := by
  have hnil : words p c 0 = [] := rfl
  rw [regAfter, hnil, List.append_nil]

theorem absorbWords_words (init : BitVec (8 * headN p)) (c : Nat → Choice) (n : Nat) :
    absorbWords (regAfter p init c 0) (words p c n) = regAfter p init c n := by
  have h3 : 3 ≤ (headWords init).length := by
    rw [length_headWords]
    rcases headN_cases p with h | h <;> omega
  rw [regAfter_zero, regAfter, List.drop_append_of_le_length h3]
  exact List.foldl_append.symm

theorem heads_sent (maskO : BitVec 2 → BitVec 2) (h : Idle s) (h0 : s.headCntQ = 0) (l : Nat)
    (g : Signals) (c : Nat → Choice) (ds : List Choice) :
    ∃ is, drives maskO l (call l g) s (choices c 0 (dataStart p) ++ ds) =
        is ++ drives maskO l (call l g) ((machine p maskO).run s is) ds ∧
      AtData (regAfter p (headInit p ((call l g).put (c 0))) c 0) ((machine p maskO).run s is) ∧
      ((machine p maskO).run s is).crcRawShifted = crcRaw ((machine p maskO).run s is) ∧
      ((machine p maskO).run s is).footCntQ = s.footCntQ - BitVec.ofNat 4 (headN p + 2) ∧
      delivered (machine p maskO) port s is = headWords (headInit p ((call l g).put (c 0))) := by
  have heven : 2 * (headN p / 2) = headN p := by
    rcases headN_cases p with h | h <;> omega
  have hsplit : choices c 0 (dataStart p) = c 0 :: choices c 1 (headN p / 2) := by
    rw [dataStart, choices_add, choices_one]
    rfl
  have hwait : appReady s = false := h.2.2.1
  have hstep : (sendSimpleTxData l).step (call l g) (appReady s) (c 0) = call l g := by
    rw [hwait]
    exact sendStep_wait (l := l) rfl (c 0)
  have hfirst : drives maskO l (call l g) s (choices c 0 (dataStart p) ++ ds) =
      (call l g).put (c 0) :: drives maskO l (call l g) (next true s ((call l g).put (c 0)))
        (choices c 1 (headN p / 2) ++ ds) := by
    rw [hsplit]
    exact Driver.inputs_cons hstep
  have hlive : Live ((call l g).put (c 0)) := ⟨rfl, rfl⟩
  have hstart := h.request h0 hlive rfl
  have hcnt := footCntQ_next h.2.2.1 ((call l g).put (c 0))
  have hopen := crcRawShifted_next (s := s) (i := (call l g).put (c 0)) rfl
  generalize (call l g).put (c 0) = i at *
  obtain ⟨is, hheads, hlen, hall, hcnts⟩ := drives_heads maskO (l := l) (g := (call l g).signals)
    hstart rfl rfl rfl (choices c 1 (headN p / 2)) ds
    (by rw [length_choices, Nat.sub_self, Nat.zero_add, heven])
  rw [length_choices] at hlen hcnts
  obtain ⟨hdata, hsent⟩ := hstart.run maskO (by rw [hlen, Nat.sub_self, Nat.zero_add, heven])
    fun j hj => (hall j hj).1
  have hrun : (machine p maskO).run s (i :: is) = (machine p maskO).run (next true s i) is := rfl
  refine ⟨i :: is, ?_, ?_, ?_, ?_, ?_⟩
  · rw [hfirst, hrun, List.cons_append]
    exact congrArg (_ :: ·) hheads
  · rw [hrun, regAfter_zero]
    exact hdata
  · rw [hrun]
    exact crcRawShifted_run hopen maskO fun j hj => (hall j hj).2
  · rw [hrun, hcnts, hcnt, heven, BitVec.sub_sub, Nat.add_comm, BitVec.ofNat_add]
    rfl
  · have hquiet : port ((machine p maskO).out s i) = none := h.silent
    rw [delivered_cons, hquiet]
    exact hsent

theorem beats_sent (maskO : BitVec 2 → BitVec 2) (h : AtData reg s)
    (hopen : s.crcRawShifted = crcRaw s) {g : Signals} (hlast : g.appLastI = false)
    (cs ds : List Choice) (hcs : cs.length = l / keepW) :
    ∃ is g', drives maskO l ⟨.ready, g⟩ s (cs ++ ds) =
        is ++ drives maskO l ⟨.data (l / keepW), g'⟩ ((machine p maskO).run s is) ds ∧
      AtData (absorbWords reg (cs.map Choice.random)) ((machine p maskO).run s is) ∧
      ((machine p maskO).run s is).footCntQ = countAfter l 0 s.footCntQ ∧
      ((machine p maskO).run s is).crcRawShifted = crcRaw ((machine p maskO).run s is) ∧
      delivered (machine p maskO) port s is = cs.map Choice.random := by
  obtain ⟨is, g', hdrives, hmap, hall, hfoot⟩ := drives_data maskO (l := l) (s := s)
    (g := { g with appEarlyVI := false }) hlast cs ds (by rw [hcs, Nat.zero_add]) s.footCntQ
  have hbody (j : In) (hj : j ∈ is) : j.appCancelI = false ∧ j.appLastI = false :=
    ⟨(hall j hj).1, (hall j hj).2.1⟩
  obtain ⟨_, hcnt, hsent⟩ := InData.run h.fsm maskO hbody
  rw [← hmap]
  refine ⟨is, g', ?_, h.run maskO hbody, hcnt.trans hfoot, ?_, hsent⟩
  · rw [drives_ready h.fsm, hdrives]
  · exact crcRawShifted_run hopen maskO fun j hj => (hall j hj).2.2

theorem opened (maskO : BitVec 2 → BitVec 2) (h : Idle s) (h0 : s.headCntQ = 0) (l : Nat)
    (g : Signals) (c : Nat → Choice) (ds : List Choice) :
    ∃ is g', drives maskO l (call l g) s (choices c 0 (dataStart p + l / keepW) ++ ds) =
        is ++ drives maskO l ⟨.data (l / keepW), g'⟩ ((machine p maskO).run s is) ds ∧
      AtData (regAfter p (headInit p ((call l g).put (c 0))) c (l / keepW))
        ((machine p maskO).run s is) ∧
      ((machine p maskO).run s is).footCntQ =
        countAfter l 0 (s.footCntQ - BitVec.ofNat 4 (headN p + 2)) ∧
      ((machine p maskO).run s is).crcRawShifted = crcRaw ((machine p maskO).run s is) ∧
      delivered (machine p maskO) port s is =
        headWords (headInit p ((call l g).put (c 0))) ++ words p c (l / keepW) := by
  obtain ⟨his, hheads, hdata, hopen, hcnt, hhsent⟩ := heads_sent maskO h h0 l g c
    (choices c (dataStart p) (l / keepW) ++ ds)
  obtain ⟨bis, g', hbeats, hreg, hfoot, hlatch, hbsent⟩ := beats_sent maskO hdata hopen
    (g := (call l g).signals) rfl (choices c (dataStart p) (l / keepW)) ds (length_choices _ _ _)
  have hwords : (choices c (dataStart p) (l / keepW)).map Choice.random = words p c (l / keepW) :=
    rfl
  rw [hwords] at hreg hbsent
  have hcs : choices c 0 (dataStart p + l / keepW) ++ ds =
      choices c 0 (dataStart p) ++ (choices c (dataStart p) (l / keepW) ++ ds) := by
    rw [choices_add, Nat.zero_add, List.append_assoc]
  have hready : call l g = ⟨.ready, (call l g).signals⟩ := rfl
  rw [← hready] at hbeats
  refine ⟨his ++ bis, g', ?_, ?_, ?_, ?_, ?_⟩
  · rw [Mealy.run_append, hcs, hheads, hbeats, List.append_assoc]
  · rw [Mealy.run_append, ← absorbWords_words]
    exact hreg
  · rw [Mealy.run_append, hfoot, hcnt]
  · rw [Mealy.run_append]
    exact hlatch
  · rw [delivered_append, hhsent, hbsent]

theorem payload_eq (l : Nat) (c : Nat → Choice) : payload p l c =
    wireBytes (words p c (l / keepW)) ++
      [lane0 (c (dataStart p + l / keepW)).random].take (l % keepW) := by
  have hlen : (wireBytes (words p c (l / keepW))).length = 2 * (l / keepW) := by
    rw [length_wireBytes, length_words]
  have hwords : words p c (l / keepW + 1) =
      words p c (l / keepW) ++ [(c (dataStart p + l / keepW)).random] := by
    rw [words, choices_add, List.map_append]
    rfl
  have hleft : l - 2 * (l / keepW) = l % keepW := by
    unfold keepW
    omega
  have hle : (wireBytes (words p c (l / keepW))).length ≤ l := by
    rw [hlen]
    unfold keepW
    omega
  rw [payload, hwords, wireBytes_append, List.take_append, List.take_of_length_le hle, hlen, hleft]
  have hpar : l % keepW = 0 ∨ l % keepW = 1 := Nat.mod_two_eq_zero_or_one l
  rcases hpar with hpar | hpar <;> rw [hpar] <;> rfl

theorem footCycles_eq (p : Params) (l : Nat) (n : BitVec 4) : footCycles p l n =
    max 1 (((countAfter l 0 (n - BitVec.ofNat 4 (headN p + 2)) - 2).toNat + 1) / 2) := by
  have hpar : l % keepW = 0 ∨ l % keepW = 1 := Nat.mod_two_eq_zero_or_one l
  rw [footCycles, countAfter]
  by_cases hlong : 2 ≤ l % blockN
  · rw [if_pos hlong, if_pos ⟨hlong, Nat.zero_le _⟩]
    rcases hpar with hpar | hpar <;> rw [hpar] <;> rfl
  · have hsum : headN p + 4 + 2 * (l / keepW) = headN p + 2 + 2 * (l / keepW) + 2 := by omega
    rw [if_neg hlong, if_neg (fun h => hlong h.1), hsum, BitVec.ofNat_add, BitVec.ofNat_add,
      ← BitVec.sub_sub, ← BitVec.sub_sub]
    rfl

theorem task_sent (p : Params) (hmask : LenToMask maskO) (s : State p) (h : Idle s)
    (h0 : s.headCntQ = 0) (l : Nat) (g : Signals) (c : Nat → Choice) : Sent maskO s l g c := by
  obtain ⟨is, g', hopen, hdata, hcnt, hlatch, hfront⟩ := opened maskO h h0 l g c
    (c (dataStart p + l / keepW) ::
      choices c (dataStart p + (l / keepW + 1)) (footCycles p l s.footCntQ))
  generalize hs : (machine p maskO).run s is = s₁ at *
  have hcs : choices c 0 (dataStart p + (l / keepW + 1) + footCycles p l s.footCntQ) =
      choices c 0 (dataStart p + l / keepW) ++ c (dataStart p + l / keepW) ::
        choices c (dataStart p + (l / keepW + 1)) (footCycles p l s.footCntQ) := by
    rw [choices_add, Nat.zero_add, ← Nat.add_assoc, choices_add, Nat.zero_add, choices_one,
      List.append_assoc]
    rfl
  have hpay := payload_eq (p := p) l c
  generalize c (dataStart p + l / keepW) = cl at *
  have hstep : (sendSimpleTxData l).step ⟨.data (l / keepW), g'⟩ (appReady s₁) cl =
      ⟨.sent, sendLast l cl g'⟩ := if_neg (Nat.lt_irrefl _)
  -- the last beat and the footer
  generalize hfoot : choices c (dataStart p + (l / keepW + 1)) (footCycles p l s.footCntQ) = fs at *
  have hlen : fs.length = footCycles p l s.footCntQ := by
    rw [← hfoot, length_choices]
  have hdrives : drives maskO l ⟨.data (l / keepW), g'⟩ s₁ (cl :: fs) = _ :=
    Driver.inputs_cons hstep
  generalize hnext : (machine p maskO).next s₁
    ((sendSimpleTxData l).put ⟨.sent, sendLast l cl g'⟩ cl) = s₂ at hdrives
  have hsize : ((sendSimpleTxData l).inputs (machine p maskO) appReady
      ⟨.sent, sendLast l cl g'⟩ s₂ fs).length = fs.length := Driver.length_inputs _ _ _
  generalize hfis : (sendSimpleTxData l).inputs (machine p maskO) appReady
    ⟨.sent, sendLast l cl g'⟩ s₂ fs = fis at hdrives hsize
  have hcancel (i : In) (hi : i ∈ fis) : i.appCancelI = false := by
    rw [← hfis] at hi
    exact Driver.inputs_blind (P := fun _ => True) (Q := fun i => i.appCancelI = false)
      (fun _ _ _ _ => trivial) (fun _ _ _ => rfl) trivial s₂ fs i hi
  have hcycles : cycles maskO s l g c =
      is ++ Bench.put ⟨.sent, sendLast l cl g'⟩ cl :: fis := by
    rw [cycles, hcs, hopen, hdrives]
    rfl
  have hreg : crcRaw s₁ = _ := hdata.lfsr
  obtain ⟨hidle, hcount, gap, stray, hgap, hsent⟩ := last_foot (l := l) hmask hdata.fsm hlatch
    g' cl hcancel (by rw [hsize, hlen, footCycles_eq, hcnt])
  rw [hreg] at hsent
  refine ⟨?_, ?_, gap, stray, hgap, ?_⟩
  · rw [hcycles, Mealy.run_append, hs]
    exact hidle
  · rw [hcycles, delivered_append, hs, hfront, List.length_append, hcount, List.length_append,
      length_headWords, length_words, hsize, hlen]
    omega
  · rw [hcycles, delivered_append, hs, hfront, wireBytes_append, wireBytes_append, hpay]
    have hpre := (List.prefix_append_right_inj (wireBytes (headWords (headInit p
      ((call l g).put (c 0)))) ++ wireBytes (words p c (l / keepW)))).2 hsent
    simpa only [List.append_assoc] using hpre

theorem task_sent_sample : Sent lenToMask (reset (default : State sampleParams) default) 11
    ⟨false, 0, 0, 2, false, false, 0⟩ default :=
  task_sent sampleParams lenToMask_spec _ (idle_reset _ _) rfl 11 _ default

end LowLatencyEthernet.SimpleTx
