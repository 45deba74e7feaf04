import Mathlib.Data.List.Range
import LowLatencyEthernet.Beat.MacRx

namespace LowLatencyEthernet.MacTb
set_option autoImplicit true

open Sync MacRx

/-- One `#10` of the bench: what it drives, and the value of `valid_o` that it asserts then. -/
structure Tick where
  drive : In
  check : Option Int

/-- The arguments of `send_packet` and what is open in it: the values of `$random`, that of the tag
and those of the bytes `data_i` takes at `t_l`, and the bits that are `'x`. -/
structure Packet where
  l : Nat
  ipv4V : Int
  hasVtag : Int
  tag : Word
  byte : Nat → Byte
  last : Word
  headX : BitVec 32
  dataX : Word

def pre : BitVec 64 := 0xD555555555555555

def dstAddr : BitVec 48 := 0xFCD4F2

def srcAddr : BitVec 48 := 0xF82F08

def hType (q : Packet) : Word := if q.ipv4V ≠ 0 then ipv4 else 0

def setHead (q : Packet) : BitVec 208 :=
  if q.hasVtag ≠ 0 then hType q ++ (q.tag ++ tpic) ++ (srcAddr ++ dstAddr ++ pre)
  else q.headX ++ hType q ++ (srcAddr ++ dstAddr ++ pre)

def headLen (q : Packet) : Nat := if q.hasVtag ≠ 0 then 26 else 22

def headWord (q : Packet) (i : Nat) : Word := (setHead q).extractLsb' (16 * i) 16

def headTicks (q : Packet) : List Tick :=
  ⟨⟨false, true, headWord q 0, true, false, 2⟩, none⟩ ::
    (List.range' 1 (headLen q / 2 - 1)).map fun i =>
      ⟨⟨false, true, headWord q i, false, false, 2⟩, none⟩

def innerTick (q : Packet) (w : Word) : Tick := ⟨⟨false, true, w, false, false, 2⟩, some q.ipv4V⟩

/-- The loop over the packet at `t_l`, `data` being `data_i`: its beats, and `t_l` after it. A
header is full words, so `s` is zero. -/
def innerTicks (q : Packet) (tL : Nat) (data : Word) : List Tick × Nat :=
  if tL + 2 < q.l then
    let data :=
      if tL % 2 = 0 then lanes (q.byte tL) (lane1 data) else lanes (lane0 data) (q.byte tL)
    let rest := innerTicks q (tL + 1) data
    if 2 ≤ tL + 1 ∧ (tL + 1) % 2 = 0 then (innerTick q data :: rest.1, rest.2) else rest
  else ([], tL)
termination_by q.l - tL

def sendPacket (q : Packet) : List Tick :=
  let inner := innerTicks q 0 q.dataX
  headTicks q ++ inner.1 ++
    [⟨⟨false, true, q.last, false, true, BitVec.ofNat 2 (q.l - inner.2)⟩, none⟩]

/-- The bench calls its tasks, or waits for a cycle in which nothing is valid. -/
inductive Call where
  | idleCycle (dataI : Word) (lenI : BitVec 2)
  | sendPacket (q : Packet)
  | wait (i : In)

def Call.ticks : Call → List Tick
  | .idleCycle dataI lenI => [⟨⟨false, false, dataI, false, false, lenI⟩, some 0⟩]
  | .sendPacket q => MacTb.sendPacket q
  | .wait i => [⟨{ i with validI := false }, none⟩]

def params : Params := ⟨true⟩

/-- The receiver as the bench sees it at the end of a `#10`: after the edge, with the same
inputs. -/
def bench : Mealy State Tick Out :=
  ⟨fun s t => next params true s t.drive, fun s t => out (next params true s t.drive) t.drive⟩

def Holds (s : State) (t : Tick) : Prop :=
  ∀ v, t.check = some v → ((bench.out s t).validO.toNat : Int) = v

def drives (cs : List Call) : List In := (cs.flatMap Call.ticks).map Tick.drive

def innerWord (q : Packet) (j : Nat) : Word := lanes (q.byte (2 * j)) (q.byte (2 * j + 1))

theorem innerTicks_end (h : q.l ≤ tL + 2) (data : Word) : innerTicks q tL data = ([], tL) := by
  rw [innerTicks, if_neg (Nat.not_lt.2 h)]

/-- A pass at an even `t_l` sets the low lane, and the next one the high lane. -/
theorem innerTicks_even (h : 2 * j + 2 < q.l) (data : Word) : innerTicks q (2 * j) data =
    innerTicks q (2 * j + 1) (lanes (q.byte (2 * j)) (lane1 data)) := by
  have hpar : ¬ (2 ≤ 2 * j + 1 ∧ (2 * j + 1) % 2 = 0) := by omega
  rw [innerTicks, if_pos h, if_pos (Nat.mul_mod_right 2 j), if_neg hpar]

theorem innerTicks_odd (h : 2 * j + 1 + 2 < q.l) (data : Word) :
    innerTicks q (2 * j + 1) (lanes (q.byte (2 * j)) (lane1 data)) =
      (innerTick q (innerWord q j) :: (innerTicks q (2 * (j + 1)) (innerWord q j)).1,
        (innerTicks q (2 * (j + 1)) (innerWord q j)).2) := by
  have hpar : 2 ≤ 2 * j + 1 + 1 ∧ (2 * j + 1 + 1) % 2 = 0 := by omega
  have hodd : ¬ (2 * j + 1) % 2 = 0 := by omega
  conv => lhs; rw [innerTicks]
  rw [if_pos h, if_neg hodd, if_pos hpar, lane0_lanes]
  rfl

theorem innerTicks_eq (q : Packet) (n j : Nat) (data : Word) (hn : n = (q.l - 2) / 2 - j)
    (hj : 2 * j ≤ q.l - 2) : innerTicks q (2 * j) data =
      ((List.range' j n).map fun k => innerTick q (innerWord q k), q.l - 2) := by
  induction n generalizing j data with
  | zero =>
    by_cases hodd : 2 * j + 2 < q.l
    · have hend : 2 * j + 1 = q.l - 2 := by omega
      rw [innerTicks_even hodd, innerTicks_end (by omega), hend]
      rfl
    · have hend : 2 * j = q.l - 2 := by omega
      rw [innerTicks_end (by omega), hend]
      rfl
  | succ n ih =>
    rw [innerTicks_even (by omega), innerTicks_odd (by omega), ih (j + 1) _ (by omega) (by omega),
      List.range'_succ, List.map_cons]

def innerWords (q : Packet) : List Word := (List.range ((q.l - 2) / 2)).map (innerWord q)

theorem sendPacket_eq (q : Packet) : sendPacket q =
    headTicks q ++ (innerWords q).map (innerTick q) ++
      [⟨⟨false, true, q.last, false, true, BitVec.ofNat 2 (min q.l 2)⟩, none⟩] := by
  have hinner := innerTicks_eq q ((q.l - 2) / 2) 0 q.dataX (Nat.sub_zero _).symm (Nat.zero_le _)
  have hlen : q.l - (q.l - 2) = min q.l 2 := by omega
  rw [Nat.mul_zero] at hinner
  rw [sendPacket, hinner, hlen, innerWords, List.map_map, List.range_eq_range']
  rfl

end LowLatencyEthernet.MacTb
