import LowLatencyEthernet.Beat.Transmissions
import LowLatencyEthernet.Sync.Driver

namespace LowLatencyEthernet.SimpleTx
set_option autoImplicit true

open Sync EthTx

/-! The task `send_simple_tx_data` of `eth_tb`, which drives the transmit path. -/

/-- The signals that the task sets. -/
structure Signals where
  appEarlyVI : Bool
  appPktLenI : BitVec 16
  appDataI : Word
  appLenI : BitVec 2
  appLastI : Bool
  appLastBlockNextI : Bool
  appLastBlockNextLenI : BitVec 4
deriving DecidableEq, Repr

/-- What is open in a cycle: the value of `$random` and the bits that are `'x`. -/
structure Choice where
  random : Word
  appDataI : Word
  appLastBlockNextLenI : BitVec 4
  appCsI : BitVec 16
  x : X
deriving Inhabited

def blockN : Nat := 8

def keepW : Nat := 2

def setTxDefault (g : Signals) : Signals :=
  { g with appEarlyVI := false, appLastI := false, appLenI := 2 }

def setLastTx (x l : Nat) (g : Signals) : Signals :=
  if x % blockN = 0 ∧ x / blockN = l / blockN then
    { g with appLastBlockNextI := true, appLastBlockNextLenI := BitVec.ofNat 4 (l % blockN) }
  else { g with appLastBlockNextI := false }

/-- Where the task is when a cycle ends: in the loop that waits for `app_ready_v_o`, in the loop
over the data with `i` passes made, or past its last beat. -/
inductive Pos where
  | ready
  | data (i : Nat)
  | sent
deriving DecidableEq, Repr

structure Bench where
  pos : Pos
  signals : Signals
deriving DecidableEq, Repr

def sendLast (l : Nat) (c : Choice) (g : Signals) : Signals :=
  { g with
    appDataI := if l % keepW = 0 then c.appDataI else lanes (lane0 c.random) (lane1 c.appDataI)
    appLenI := BitVec.ofNat 2 (l % keepW)
    appLastI := true
    appLastBlockNextI := false
    appLastBlockNextLenI := c.appLastBlockNextLenI }

def sendData (l i : Nat) (c : Choice) (g : Signals) : Bench :=
  if i < l / keepW then
    ⟨.data (i + 1), setLastTx (i * keepW) l { g with appDataI := c.random, appLenI := 2 }⟩
  else ⟨.sent, sendLast l c g⟩

def sendStep (l : Nat) (b : Bench) (ready : Bool) (c : Choice) : Bench :=
  match b.pos with
  | .ready =>
    if ready then sendData l 0 c { b.signals with appEarlyVI := false }
    else ⟨.ready, { b.signals with appEarlyVI := true }⟩
  | .data i => sendData l i c b.signals
  | .sent => ⟨.sent, { b.signals with appLastI := false }⟩

def Bench.put (b : Bench) (c : Choice) : In where
  appCancelI := false
  appEarlyVI := b.signals.appEarlyVI
  appPktLenI := b.signals.appPktLenI
  appDataI := b.signals.appDataI
  appLenI := b.signals.appLenI
  appLastI := b.signals.appLastI
  appLastBlockNextI := b.signals.appLastBlockNextI
  appLastBlockNextLenI := b.signals.appLastBlockNextLenI
  appCsI := c.appCsI
  phyReadyI := true
  x := c.x

def sendSimpleTxData (l : Nat) : Driver Bench Choice Bool In := ⟨sendStep l, Bench.put⟩

def call (l : Nat) (g : Signals) : Bench :=
  ⟨.ready, { setTxDefault g with appEarlyVI := true, appPktLenI := BitVec.ofNat 16 l }⟩

def appReady (s : State p) : Bool := s.fsmDataQ

variable {p : Params} {maskO : BitVec 2 → BitVec 2} {s : State p} {l : Nat}

def drives (maskO : BitVec 2 → BitVec 2) (l : Nat) (b : Bench) (s : State p) (cs : List Choice) :
    List In :=
  (sendSimpleTxData l).inputs (machine p maskO) appReady b s cs

theorem footCntQ_next (h : s.fsmDataQ = false) (i : In) :
    (next true s i).footCntQ = s.footCntQ - 2 := by
  simp [next, footCntNext, footCntRst, footCntDec, h]

theorem sendStep_wait {g : Signals} (hg : g.appEarlyVI = true) (c : Choice) :
    sendStep l ⟨.ready, g⟩ false c = ⟨.ready, g⟩ := by
  obtain ⟨_, _, _, _, _, _, _⟩ := g
  cases hg
  rfl

theorem drives_heads (maskO : BitVec 2 → BitVec 2) {g : Signals} (h : AtHead init k s)
    (he : g.appEarlyVI = true) (hlast : g.appLastI = false) (hfull : g.appLenI = 2)
    (cs ds : List Choice) (hcs : 2 * (k - 1 + cs.length) = headN p) :
    ∃ is, drives maskO l ⟨.ready, g⟩ s (cs ++ ds) =
        is ++ drives maskO l ⟨.ready, g⟩ ((machine p maskO).run s is) ds ∧
      is.length = cs.length ∧ (∀ i ∈ is, (Live i ∧ i.appLastI = false) ∧ i.appLenI = 2) ∧
      ((machine p maskO).run s is).footCntQ = s.footCntQ - BitVec.ofNat 4 (2 * cs.length) := by
  induction cs generalizing s k with
  | nil => exact ⟨[], rfl, rfl, fun i hi => absurd hi List.not_mem_nil, (BitVec.sub_zero _).symm⟩
  | cons c cs ih =>
    obtain ⟨_, _, hdata, _⟩ := h.fsm
    have hle := h.le
    have hpos := h.pos
    generalize hi : Bench.put ⟨.ready, g⟩ c = i
    have hlive : Live i := by
      rw [← hi]
      exact ⟨rfl, rfl⟩
    have hnot : i.appLastI = false := by
      rw [← hi]
      exact hlast
    have hlen : i.appLenI = 2 := by
      rw [← hi]
      exact hfull
    have hstep : (sendSimpleTxData l).step ⟨.ready, g⟩ (appReady s) c = ⟨.ready, g⟩ := by
      rw [appReady, hdata]
      exact sendStep_wait (l := l) he c
    have hput : drives maskO l ⟨.ready, g⟩ s (c :: cs ++ ds) =
        i :: drives maskO l ⟨.ready, g⟩ (next true s i) (cs ++ ds) := by
      rw [← hi]
      exact Driver.inputs_cons hstep
    have hcnt := footCntQ_next hdata i
    rw [List.length_cons] at hcs
    by_cases hk : 2 * k = headN p
    · have hnil : cs = [] := List.eq_nil_of_length_eq_zero (by omega)
      subst hnil
      refine ⟨[i], hput, rfl, ?_, hcnt⟩
      intro j hj
      rw [List.mem_singleton.1 hj]
      exact ⟨⟨hlive, hnot⟩, hlen⟩
    · obtain ⟨is, his, hsize, hall, hfoot⟩ := ih (h.step hlive hnot (by omega)) (by omega)
      refine ⟨i :: is, ?_, congrArg (· + 1) hsize, ?_, ?_⟩
      · rw [hput, his]
        rfl
      · intro j hj
        rcases List.mem_cons.1 hj with rfl | hj
        · exact ⟨⟨hlive, hnot⟩, hlen⟩
        · exact hall j hj
      · have hfoot : ((machine p maskO).run s (i :: is)).footCntQ = _ := hfoot
        rw [hfoot, hcnt, BitVec.sub_sub, List.length_cons, Nat.mul_succ, Nat.add_comm,
          BitVec.ofNat_add]
        rfl

theorem drives_ready {g : Signals} (h : InData s) (cs : List Choice) :
    drives maskO l ⟨.ready, g⟩ s cs =
      drives maskO l ⟨.data 0, { g with appEarlyVI := false }⟩ s cs := by
  have hready : appReady s = true := h.2.2.1
  cases cs with
  | nil => rfl
  | cons c cs =>
    rw [drives, drives, Driver.inputs, Driver.inputs, hready]
    rfl

/-- Counting down from the one beat that announces the last block. -/
def countAfter (l i : Nat) (n : BitVec 4) : BitVec 4 :=
  if 2 ≤ l % blockN ∧ i ≤ 4 * (l / blockN) then BitVec.ofNat 4 (6 + l % keepW)
  else n - BitVec.ofNat 4 (2 * (l / keepW - i))

theorem sendData_data (hi : i < l / keepW) (c : Choice) (g : Signals) :
    sendData l i c g =
      ⟨.data (i + 1), setLastTx (i * keepW) l { g with appDataI := c.random, appLenI := 2 }⟩ := by
  rw [sendData, if_pos hi]

theorem marks_iff (i l : Nat) :
    i * keepW % blockN = 0 ∧ i * keepW / blockN = l / blockN ↔ i = 4 * (l / blockN) := by
  unfold keepW blockN at *
  omega

theorem countAfter_succ (hi : i < l / keepW) (n : BitVec 4) :
    countAfter l (i + 1) (if i = 4 * (l / blockN) then BitVec.ofNat 4 (l % blockN) + 4 else n - 2) =
      countAfter l i n := by
  unfold countAfter
  by_cases heq : i = 4 * (l / blockN)
  · have hsum : l % blockN + 4 = 6 + l % keepW + 2 * (l / keepW - (i + 1)) := by
      unfold keepW blockN at *
      omega
    have hlong : 2 ≤ l % blockN ∧ i ≤ 4 * (l / blockN) := by
      unfold keepW blockN at *
      omega
    have hpast : ¬ (2 ≤ l % blockN ∧ i + 1 ≤ 4 * (l / blockN)) := by omega
    have hcnt : BitVec.ofNat 4 (l % blockN) + 4 = BitVec.ofNat 4 (l % blockN + 4) :=
      (BitVec.ofNat_add _ _).symm
    rw [if_pos heq, if_pos hlong, if_neg hpast, hcnt, hsum, BitVec.ofNat_add,
      BitVec.add_sub_cancel]
  · have hiff : 2 ≤ l % blockN ∧ i + 1 ≤ 4 * (l / blockN) ↔
        2 ≤ l % blockN ∧ i ≤ 4 * (l / blockN) := by omega
    have hleft : 2 * (l / keepW - i) = 2 + 2 * (l / keepW - (i + 1)) := by omega
    have hsub : n - BitVec.ofNat 4 (2 * (l / keepW - i)) =
        n - 2 - BitVec.ofNat 4 (2 * (l / keepW - (i + 1))) := by
      rw [hleft, BitVec.ofNat_add, BitVec.sub_sub]
      rfl
    rw [if_neg heq, hsub]
    simp only [hiff]

theorem footCnt_cons (n : BitVec 4) (i : In) (is : List In) :
    footCnt n (i :: is) = footCnt (if i.appLastBlockNextI then footCntInit i else n - 2) is := rfl

theorem drives_data (maskO : BitVec 2 → BitVec 2) {g : Signals} (hlast : g.appLastI = false)
    (cs ds : List Choice) (hcs : i + cs.length = l / keepW) (n : BitVec 4) :
    ∃ is g', drives maskO l ⟨.data i, g⟩ s (cs ++ ds) =
        is ++ drives maskO l ⟨.data (l / keepW), g'⟩ ((machine p maskO).run s is) ds ∧
      is.map In.appDataI = cs.map Choice.random ∧
      (∀ j ∈ is, j.appCancelI = false ∧ j.appLastI = false ∧ j.appLenI = 2) ∧
      footCnt n is = countAfter l i n := by
  induction cs generalizing s i g n with
  | nil =>
    rw [List.length_nil, Nat.add_zero] at hcs
    subst hcs
    refine ⟨[], g, rfl, rfl, fun i hi => absurd hi List.not_mem_nil, ?_⟩
    rw [countAfter, if_neg, Nat.sub_self]
    · exact (BitVec.sub_zero n).symm
    · unfold keepW blockN
      omega
  | cons c cs ih =>
    rw [List.length_cons] at hcs
    have hi : i < l / keepW := by omega
    have hstep : (sendSimpleTxData l).step ⟨.data i, g⟩ (appReady s) c = _ :=
      sendData_data hi c g
    generalize hg : setLastTx (i * keepW) l { g with appDataI := c.random, appLenI := 2 } = g₁
      at hstep
    have hmark : g₁ = if i = 4 * (l / blockN) then
        { g with
          appDataI := c.random
          appLenI := 2
          appLastBlockNextI := true
          appLastBlockNextLenI := BitVec.ofNat 4 (l % blockN) }
        else { g with appDataI := c.random, appLenI := 2, appLastBlockNextI := false } := by
      rw [← hg, setLastTx]
      simp only [marks_iff]
    have hfields : g₁.appDataI = c.random ∧ g₁.appLenI = 2 ∧ g₁.appLastI = false := by
      rw [hmark]
      split <;> exact ⟨rfl, rfl, hlast⟩
    obtain ⟨hdata, hlen, hnot⟩ := hfields
    have hput : drives maskO l ⟨.data i, g⟩ s (c :: cs ++ ds) = _ := Driver.inputs_cons hstep
    generalize hj : (sendSimpleTxData l).put ⟨.data (i + 1), g₁⟩ c = j at hput
    obtain ⟨is, g', his, hmap, hall, hfoot⟩ := ih (s := next true s j) (i := i + 1) hnot (by omega)
      (if j.appLastBlockNextI then footCntInit j else n - 2)
    refine ⟨j :: is, g', ?_, ?_, ?_, ?_⟩
    · rw [hput]
      exact congrArg (_ :: ·) his
    · rw [List.map_cons, hmap, ← hj]
      exact congrArg (· :: _) hdata
    · intro j' hj'
      rcases List.mem_cons.1 hj' with rfl | hj'
      · rw [← hj]
        exact ⟨rfl, hnot, hlen⟩
      · exact hall j' hj'
    · have hsel : (if j.appLastBlockNextI then footCntInit j else n - 2) =
          if i = 4 * (l / blockN) then BitVec.ofNat 4 (l % blockN) + 4 else n - 2 := by
        rw [← hj, hmark]
        by_cases heq : i = 4 * (l / blockN)
        · rw [if_pos heq, if_pos heq]
          rfl
        · rw [if_neg heq, if_neg heq]
          rfl
      rw [footCnt_cons, hfoot, hsel, countAfter_succ hi]

end LowLatencyEthernet.SimpleTx
