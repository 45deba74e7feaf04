import LowLatencyEthernet.Beat.WideFrames
import LowLatencyEthernet.Rtl.CrcSerial

namespace LowLatencyEthernet.CrcWide
set_option autoImplicit true

open Lfsr
open Crc (xorNetwork poly)

/-! The check sequence `crc` with `DATA_W = 32` and with `DATA_W = 64`. -/

inductive Width where
  | w32
  | w64
deriving DecidableEq, Repr

namespace Width

def keepW : Width → Nat
  | .w32 => 4
  | .w64 => 8

/-- `$clog2(KEEP_W+1)` -/
def lenW : Width → Nat
  | .w32 => 3
  | .w64 => 4

abbrev dataW (w : Width) : Nat := 8 * w.keepW

end Width

/-- The rows `lfsr_next_arr[3][0]` to `lfsr_next_arr[3][31]`. -/
def rows3 : List (List Nat × List Nat) :=
  [
    ([0, 6, 9, 10, 12, 16, 24, 25, 26, 28, 29, 30, 31], [0, 6, 9, 10, 12, 16, 24, 25, 26, 28, 29,
      30, 31]),
    ([0, 1, 6, 7, 9, 11, 12, 13, 16, 17, 24, 27, 28], [0, 1, 6, 7, 9, 11, 12, 13, 16, 17, 24, 27,
      28]),
    ([0, 1, 2, 6, 7, 8, 9, 13, 14, 16, 17, 18, 24, 26, 30, 31], [0, 1, 2, 6, 7, 8, 9, 13, 14, 16,
      17, 18, 24, 26, 30, 31]),
    ([1, 2, 3, 7, 8, 9, 10, 14, 15, 17, 18, 19, 25, 27, 31], [1, 2, 3, 7, 8, 9, 10, 14, 15, 17, 18,
      19, 25, 27, 31]),
    ([0, 2, 3, 4, 6, 8, 11, 12, 15, 18, 19, 20, 24, 25, 29, 30, 31], [0, 2, 3, 4, 6, 8, 11, 12, 15,
      18, 19, 20, 24, 25, 29, 30, 31]),
    ([0, 1, 3, 4, 5, 6, 7, 10, 13, 19, 20, 21, 24, 28, 29], [0, 1, 3, 4, 5, 6, 7, 10, 13, 19, 20,
      21, 24, 28, 29]),
    ([1, 2, 4, 5, 6, 7, 8, 11, 14, 20, 21, 22, 25, 29, 30], [1, 2, 4, 5, 6, 7, 8, 11, 14, 20, 21,
      22, 25, 29, 30]),
    ([0, 2, 3, 5, 7, 8, 10, 15, 16, 21, 22, 23, 24, 25, 28, 29], [0, 2, 3, 5, 7, 8, 10, 15, 16, 21,
      22, 23, 24, 25, 28, 29]),
    ([0, 1, 3, 4, 8, 10, 11, 12, 17, 22, 23, 28, 31], [0, 1, 3, 4, 8, 10, 11, 12, 17, 22, 23, 28,
      31]),
    ([1, 2, 4, 5, 9, 11, 12, 13, 18, 23, 24, 29], [1, 2, 4, 5, 9, 11, 12, 13, 18, 23, 24, 29]),
    ([0, 2, 3, 5, 9, 13, 14, 16, 19, 26, 28, 29, 31], [0, 2, 3, 5, 9, 13, 14, 16, 19, 26, 28, 29,
      31]),
    ([0, 1, 3, 4, 9, 12, 14, 15, 16, 17, 20, 24, 25, 26, 27, 28, 31], [0, 1, 3, 4, 9, 12, 14, 15,
      16, 17, 20, 24, 25, 26, 27, 28, 31]),
    ([0, 1, 2, 4, 5, 6, 9, 12, 13, 15, 17, 18, 21, 24, 27, 30, 31], [0, 1, 2, 4, 5, 6, 9, 12, 13,
      15, 17, 18, 21, 24, 27, 30, 31]),
    ([1, 2, 3, 5, 6, 7, 10, 13, 14, 16, 18, 19, 22, 25, 28, 31], [1, 2, 3, 5, 6, 7, 10, 13, 14, 16,
      18, 19, 22, 25, 28, 31]),
    ([2, 3, 4, 6, 7, 8, 11, 14, 15, 17, 19, 20, 23, 26, 29], [2, 3, 4, 6, 7, 8, 11, 14, 15, 17, 19,
      20, 23, 26, 29]),
    ([3, 4, 5, 7, 8, 9, 12, 15, 16, 18, 20, 21, 24, 27, 30], [3, 4, 5, 7, 8, 9, 12, 15, 16, 18, 20,
      21, 24, 27, 30]),
    ([0, 4, 5, 8, 12, 13, 17, 19, 21, 22, 24, 26, 29, 30], [0, 4, 5, 8, 12, 13, 17, 19, 21, 22, 24,
      26, 29, 30]),
    ([1, 5, 6, 9, 13, 14, 18, 20, 22, 23, 25, 27, 30, 31], [1, 5, 6, 9, 13, 14, 18, 20, 22, 23, 25,
      27, 30, 31]),
    ([2, 6, 7, 10, 14, 15, 19, 21, 23, 24, 26, 28, 31], [2, 6, 7, 10, 14, 15, 19, 21, 23, 24, 26,
      28, 31]),
    ([3, 7, 8, 11, 15, 16, 20, 22, 24, 25, 27, 29], [3, 7, 8, 11, 15, 16, 20, 22, 24, 25, 27, 29]),
    ([4, 8, 9, 12, 16, 17, 21, 23, 25, 26, 28, 30], [4, 8, 9, 12, 16, 17, 21, 23, 25, 26, 28, 30]),
    ([5, 9, 10, 13, 17, 18, 22, 24, 26, 27, 29, 31], [5, 9, 10, 13, 17, 18, 22, 24, 26, 27, 29,
      31]),
    ([0, 9, 11, 12, 14, 16, 18, 19, 23, 24, 26, 27, 29, 31], [0, 9, 11, 12, 14, 16, 18, 19, 23, 24,
      26, 27, 29, 31]),
    ([0, 1, 6, 9, 13, 15, 16, 17, 19, 20, 26, 27, 29, 31], [0, 1, 6, 9, 13, 15, 16, 17, 19, 20, 26,
      27, 29, 31]),
    ([1, 2, 7, 10, 14, 16, 17, 18, 20, 21, 27, 28, 30], [1, 2, 7, 10, 14, 16, 17, 18, 20, 21, 27,
      28, 30]),
    ([2, 3, 8, 11, 15, 17, 18, 19, 21, 22, 28, 29, 31], [2, 3, 8, 11, 15, 17, 18, 19, 21, 22, 28,
      29, 31]),
    ([0, 3, 4, 6, 10, 18, 19, 20, 22, 23, 24, 25, 26, 28, 31], [0, 3, 4, 6, 10, 18, 19, 20, 22, 23,
      24, 25, 26, 28, 31]),
    ([1, 4, 5, 7, 11, 19, 20, 21, 23, 24, 25, 26, 27, 29], [1, 4, 5, 7, 11, 19, 20, 21, 23, 24, 25,
      26, 27, 29]),
    ([2, 5, 6, 8, 12, 20, 21, 22, 24, 25, 26, 27, 28, 30], [2, 5, 6, 8, 12, 20, 21, 22, 24, 25, 26,
      27, 28, 30]),
    ([3, 6, 7, 9, 13, 21, 22, 23, 25, 26, 27, 28, 29, 31], [3, 6, 7, 9, 13, 21, 22, 23, 25, 26, 27,
      28, 29, 31]),
    ([4, 7, 8, 10, 14, 22, 23, 24, 26, 27, 28, 29, 30], [4, 7, 8, 10, 14, 22, 23, 24, 26, 27, 28,
      29, 30]),
    ([5, 8, 9, 11, 15, 23, 24, 25, 27, 28, 29, 30, 31], [5, 8, 9, 11, 15, 23, 24, 25, 27, 28, 29,
      30, 31])]

/-- The rows `lfsr_next_arr[7][0]` to `lfsr_next_arr[7][31]`. -/
def rows7 : List (List Nat × List Nat) :=
  [
    ([0, 2, 5, 12, 13, 15, 16, 18, 21, 22, 23, 26, 28, 29, 31], [0, 6, 9, 10, 12, 16, 24, 25, 26,
      28, 29, 30, 31, 32, 34, 37, 44, 45, 47, 48, 50, 53, 54, 55, 58, 60, 61, 63]),
    ([1, 2, 3, 5, 6, 12, 14, 15, 17, 18, 19, 21, 24, 26, 27, 28, 30, 31], [0, 1, 6, 7, 9, 11, 12,
      13, 16, 17, 24, 27, 28, 33, 34, 35, 37, 38, 44, 46, 47, 49, 50, 51, 53, 56, 58, 59, 60, 62,
      63]),
    ([0, 3, 4, 5, 6, 7, 12, 19, 20, 21, 23, 25, 26, 27], [0, 1, 2, 6, 7, 8, 9, 13, 14, 16, 17, 18,
      24, 26, 30, 31, 32, 35, 36, 37, 38, 39, 44, 51, 52, 53, 55, 57, 58, 59]),
    ([0, 1, 4, 5, 6, 7, 8, 13, 20, 21, 22, 24, 26, 27, 28], [1, 2, 3, 7, 8, 9, 10, 14, 15, 17, 18,
      19, 25, 27, 31, 32, 33, 36, 37, 38, 39, 40, 45, 52, 53, 54, 56, 58, 59, 60]),
    ([1, 6, 7, 8, 9, 12, 13, 14, 15, 16, 18, 25, 26, 27, 31], [0, 2, 3, 4, 6, 8, 11, 12, 15, 18, 19,
      20, 24, 25, 29, 30, 31, 33, 38, 39, 40, 41, 44, 45, 46, 47, 48, 50, 57, 58, 59, 63]),
    ([5, 7, 8, 9, 10, 12, 14, 17, 18, 19, 21, 22, 23, 27, 29, 31], [0, 1, 3, 4, 5, 6, 7, 10, 13, 19,
      20, 21, 24, 28, 29, 37, 39, 40, 41, 42, 44, 46, 49, 50, 51, 53, 54, 55, 59, 61, 63]),
    ([6, 8, 9, 10, 11, 13, 15, 18, 19, 20, 22, 23, 24, 28, 30], [1, 2, 4, 5, 6, 7, 8, 11, 14, 20,
      21, 22, 25, 29, 30, 38, 40, 41, 42, 43, 45, 47, 50, 51, 52, 54, 55, 56, 60, 62]),
    ([0, 2, 5, 7, 9, 10, 11, 13, 14, 15, 18, 19, 20, 22, 24, 25, 26, 28], [0, 2, 3, 5, 7, 8, 10, 15,
      16, 21, 22, 23, 24, 25, 28, 29, 32, 34, 37, 39, 41, 42, 43, 45, 46, 47, 50, 51, 52, 54, 56,
      57, 58, 60]),
    ([0, 1, 2, 3, 5, 6, 8, 10, 11, 13, 14, 18, 19, 20, 22, 25, 27, 28, 31], [0, 1, 3, 4, 8, 10, 11,
      12, 17, 22, 23, 28, 31, 32, 33, 34, 35, 37, 38, 40, 42, 43, 45, 46, 50, 51, 52, 54, 57, 59,
      60, 63]),
    ([0, 1, 2, 3, 4, 6, 7, 9, 11, 12, 14, 15, 19, 20, 21, 23, 26, 28, 29], [1, 2, 4, 5, 9, 11, 12,
      13, 18, 23, 24, 29, 32, 33, 34, 35, 36, 38, 39, 41, 43, 44, 46, 47, 51, 52, 53, 55, 58, 60,
      61]),
    ([0, 1, 3, 4, 7, 8, 10, 18, 20, 23, 24, 26, 27, 28, 30, 31], [0, 2, 3, 5, 9, 13, 14, 16, 19, 26,
      28, 29, 31, 32, 33, 35, 36, 39, 40, 42, 50, 52, 55, 56, 58, 59, 60, 62, 63]),
    ([1, 4, 8, 9, 11, 12, 13, 15, 16, 18, 19, 22, 23, 24, 25, 26, 27], [0, 1, 3, 4, 9, 12, 14, 15,
      16, 17, 20, 24, 25, 26, 27, 28, 31, 33, 36, 40, 41, 43, 44, 45, 47, 48, 50, 51, 54, 55, 56,
      57, 58, 59]),
    ([9, 10, 14, 15, 17, 18, 19, 20, 21, 22, 24, 25, 27, 29, 31], [0, 1, 2, 4, 5, 6, 9, 12, 13, 15,
      17, 18, 21, 24, 27, 30, 31, 41, 42, 46, 47, 49, 50, 51, 52, 53, 54, 56, 57, 59, 61, 63]),
    ([0, 10, 11, 15, 16, 18, 19, 20, 21, 22, 23, 25, 26, 28, 30], [1, 2, 3, 5, 6, 7, 10, 13, 14, 16,
      18, 19, 22, 25, 28, 31, 32, 42, 43, 47, 48, 50, 51, 52, 53, 54, 55, 57, 58, 60, 62]),
    ([0, 1, 11, 12, 16, 17, 19, 20, 21, 22, 23, 24, 26, 27, 29, 31], [2, 3, 4, 6, 7, 8, 11, 14, 15,
      17, 19, 20, 23, 26, 29, 32, 33, 43, 44, 48, 49, 51, 52, 53, 54, 55, 56, 58, 59, 61, 63]),
    ([1, 2, 12, 13, 17, 18, 20, 21, 22, 23, 24, 25, 27, 28, 30], [3, 4, 5, 7, 8, 9, 12, 15, 16, 18,
      20, 21, 24, 27, 30, 33, 34, 44, 45, 49, 50, 52, 53, 54, 55, 56, 57, 59, 60, 62]),
    ([0, 3, 5, 12, 14, 15, 16, 19, 24, 25], [0, 4, 5, 8, 12, 13, 17, 19, 21, 22, 24, 26, 29, 30, 32,
      35, 37, 44, 46, 47, 48, 51, 56, 57]),
    ([1, 4, 6, 13, 15, 16, 17, 20, 25, 26], [1, 5, 6, 9, 13, 14, 18, 20, 22, 23, 25, 27, 30, 31, 33,
      36, 38, 45, 47, 48, 49, 52, 57, 58]),
    ([0, 2, 5, 7, 14, 16, 17, 18, 21, 26, 27], [2, 6, 7, 10, 14, 15, 19, 21, 23, 24, 26, 28, 31, 32,
      34, 37, 39, 46, 48, 49, 50, 53, 58, 59]),
    ([0, 1, 3, 6, 8, 15, 17, 18, 19, 22, 27, 28], [3, 7, 8, 11, 15, 16, 20, 22, 24, 25, 27, 29, 32,
      33, 35, 38, 40, 47, 49, 50, 51, 54, 59, 60]),
    ([1, 2, 4, 7, 9, 16, 18, 19, 20, 23, 28, 29], [4, 8, 9, 12, 16, 17, 21, 23, 25, 26, 28, 30, 33,
      34, 36, 39, 41, 48, 50, 51, 52, 55, 60, 61]),
    ([2, 3, 5, 8, 10, 17, 19, 20, 21, 24, 29, 30], [5, 9, 10, 13, 17, 18, 22, 24, 26, 27, 29, 31,
      34, 35, 37, 40, 42, 49, 51, 52, 53, 56, 61, 62]),
    ([2, 3, 4, 5, 6, 9, 11, 12, 13, 15, 16, 20, 23, 25, 26, 28, 29, 30], [0, 9, 11, 12, 14, 16, 18,
      19, 23, 24, 26, 27, 29, 31, 34, 35, 36, 37, 38, 41, 43, 44, 45, 47, 48, 52, 55, 57, 58, 60,
      61, 62]),
    ([2, 3, 4, 6, 7, 10, 14, 15, 17, 18, 22, 23, 24, 27, 28, 30], [0, 1, 6, 9, 13, 15, 16, 17, 19,
      20, 26, 27, 29, 31, 34, 35, 36, 38, 39, 42, 46, 47, 49, 50, 54, 55, 56, 59, 60, 62]),
    ([0, 3, 4, 5, 7, 8, 11, 15, 16, 18, 19, 23, 24, 25, 28, 29, 31], [1, 2, 7, 10, 14, 16, 17, 18,
      20, 21, 27, 28, 30, 32, 35, 36, 37, 39, 40, 43, 47, 48, 50, 51, 55, 56, 57, 60, 61, 63]),
    ([1, 4, 5, 6, 8, 9, 12, 16, 17, 19, 20, 24, 25, 26, 29, 30], [2, 3, 8, 11, 15, 17, 18, 19, 21,
      22, 28, 29, 31, 33, 36, 37, 38, 40, 41, 44, 48, 49, 51, 52, 56, 57, 58, 61, 62]),
    ([6, 7, 9, 10, 12, 15, 16, 17, 20, 22, 23, 25, 27, 28, 29, 30], [0, 3, 4, 6, 10, 18, 19, 20, 22,
      23, 24, 25, 26, 28, 31, 38, 39, 41, 42, 44, 47, 48, 49, 52, 54, 55, 57, 59, 60, 61, 62]),
    ([0, 7, 8, 10, 11, 13, 16, 17, 18, 21, 23, 24, 26, 28, 29, 30, 31], [1, 4, 5, 7, 11, 19, 20, 21,
      23, 24, 25, 26, 27, 29, 32, 39, 40, 42, 43, 45, 48, 49, 50, 53, 55, 56, 58, 60, 61, 62, 63]),
    ([1, 8, 9, 11, 12, 14, 17, 18, 19, 22, 24, 25, 27, 29, 30, 31], [2, 5, 6, 8, 12, 20, 21, 22, 24,
      25, 26, 27, 28, 30, 33, 40, 41, 43, 44, 46, 49, 50, 51, 54, 56, 57, 59, 61, 62, 63]),
    ([2, 9, 10, 12, 13, 15, 18, 19, 20, 23, 25, 26, 28, 30, 31], [3, 6, 7, 9, 13, 21, 22, 23, 25,
      26, 27, 28, 29, 31, 34, 41, 42, 44, 45, 47, 50, 51, 52, 55, 57, 58, 60, 62, 63]),
    ([0, 3, 10, 11, 13, 14, 16, 19, 20, 21, 24, 26, 27, 29, 31], [4, 7, 8, 10, 14, 22, 23, 24, 26,
      27, 28, 29, 30, 32, 35, 42, 43, 45, 46, 48, 51, 52, 53, 56, 58, 59, 61, 63]),
    ([1, 4, 11, 12, 14, 15, 17, 20, 21, 22, 25, 27, 28, 30], [5, 8, 9, 11, 15, 23, 24, 25, 27, 28,
      29, 30, 31, 33, 36, 43, 44, 46, 47, 49, 52, 53, 54, 57, 59, 60, 62])]

/-- The rows for all bytes of a beat. -/
def Width.rows : Width → List (List Nat × List Nat)
  | .w32 => rows3
  | .w64 => rows7

-- `undriven` stands for the rows of `lfsr_next_arr` that nothing drives: any value.
structure In (w : Width) where
  validI : Bool
  lenI : BitVec w.lenW
  startI : Bool
  dataI : BitVec w.dataW
  undriven : BitVec 32
deriving DecidableEq, Repr

variable {w : Width}

/-- `lfsr_next_arr`. One byte and two are those of the lowest lanes. -/
def lfsrNextArr (lfsr : BitVec 32) (i : In w) (k : Nat) : BitVec 32 :=
  if k = 0 then Crc.lfsrNextArr0 lfsr (i.dataI.extractLsb' 8 8)
  else if k = 1 then Crc.lfsrNextArr1 lfsr (i.dataI.extractLsb' 0 16)
  else if k + 1 = w.keepW then xorNetwork w.rows lfsr i.dataI
  else i.undriven

def lfsr (s : Crc.State) (i : In w) : BitVec 32 :=
  if i.startI then BitVec.allOnes 32 else s.lfsrQ

def lfsrNext (s : Crc.State) (i : In w) : BitVec 32 :=
  if 1 ≤ i.lenI.toNat ∧ i.lenI.toNat ≤ w.keepW then lfsrNextArr (lfsr s i) i (i.lenI.toNat - 1)
  else s.lfsrNext

def settle (s : Crc.State) (i : In w) : Crc.State := { s with lfsrNext := lfsrNext s i }

def next (s : Crc.State) (i : In w) : Crc.State :=
  settle { s with lfsrQ := if i.validI then lfsrNext s i else s.lfsrQ } i

def machine (w : Width) : Sync.Mealy Crc.State (In w) (BitVec 32) :=
  ⟨next, fun s _ => Crc.crcO s⟩

theorem rows_eq (w : Width) (lfsr : BitVec 32) (data : BitVec w.dataW) :
    xorNetwork w.rows lfsr data = absorb poly lfsr data := by
  cases w with
  | w32 => exact Crc.xorNetwork_eq_absorb (by decide +kernel) (by decide +kernel) lfsr data
  | w64 => exact Crc.xorNetwork_eq_absorb (by decide +kernel) (by decide +kernel) lfsr data

theorem absorb_lanes (r : BitVec 32) (d : BitVec (8 * k)) :
    absorb poly r d = (laneBytes d k).reverse.foldl (absorb poly) r := by
  induction k generalizing r with
  | zero =>
    rw [BitVec.of_length_zero (x := d)]
    rfl
  | succ k ih =>
    have hsplit : d = (d.extractLsb' 8 (8 * k) ++ d.extractLsb' 0 8 : BitVec (8 * k + 8)) := by
      apply BitVec.eq_of_getLsbD_eq
      intro i hi
      rw [BitVec.getLsbD_append]
      by_cases h : i < 8
      · simp [h]
      · have hlt : i - 8 < 8 * k := by omega
        simp [h, hlt, Nat.add_sub_of_le (Nat.not_lt.1 h)]
    have hhigh : laneBytes d (k + 1) =
        d.extractLsb' 0 8 :: laneBytes (d.extractLsb' 8 (8 * k)) k := by
      rw [laneBytes, laneBytes, List.range_succ_eq_map, List.map_cons, List.map_map]
      congr 1
      apply List.map_congr_left
      intro j hj
      have hlt : 8 * j + 8 ≤ 8 * k := by
        have := List.mem_range.1 hj
        omega
      have hoff : 8 * j.succ = 8 + 8 * j := by omega
      rw [Function.comp_apply, extractLsb'_field d hlt, hoff]
    rw [hhigh, List.reverse_cons, List.foldl_append, ← ih]
    exact (congrArg (absorb poly r) hsplit).trans (absorb_append poly r _ _)

def In.bytes (i : In w) : List Byte :=
  if i.lenI.toNat = 1 then [i.dataI.extractLsb' 8 8]
  else if i.lenI.toNat = 2 then [i.dataI.extractLsb' 8 8, i.dataI.extractLsb' 0 8]
  else (laneBytes i.dataI w.keepW).reverse

/-- There is a network for the length of the beat. -/
def In.Driven (i : In w) : Prop :=
  i.lenI.toNat = 1 ∨ i.lenI.toNat = 2 ∨ i.lenI.toNat = w.keepW

theorem lfsrNext_eq (s : Crc.State) {i : In w} (h : i.Driven) :
    lfsrNext s i = i.bytes.foldl (absorb poly) (lfsr s i) := by
  rcases h with h | h | h
  · have hle : 1 ≤ w.keepW := by cases w <;> decide
    rw [lfsrNext, In.bytes, h, if_pos ⟨Nat.le_refl 1, hle⟩, if_pos rfl, lfsrNextArr, if_pos rfl,
      Crc.lfsrNextArr0_eq]
    rfl
  · have hle : 2 ≤ w.keepW := by cases w <;> decide
    have hlow : lane0 (i.dataI.extractLsb' 0 16) = i.dataI.extractLsb' 0 8 :=
      extractLsb'_field i.dataI (by decide)
    have hhigh : lane1 (i.dataI.extractLsb' 0 16) = i.dataI.extractLsb' 8 8 :=
      extractLsb'_field i.dataI (by decide)
    rw [lfsrNext, In.bytes, h, if_pos ⟨by decide, hle⟩, if_neg (by decide), if_pos rfl, lfsrNextArr,
      if_neg (by decide), if_pos rfl, Crc.lfsrNextArr1_eq, Crc.absorb_word, hlow, hhigh]
    rfl
  · have hle : 3 ≤ w.keepW := by cases w <;> decide
    rw [lfsrNext, In.bytes, h, if_pos ⟨by omega, Nat.le_refl _⟩, if_neg (by omega),
      if_neg (by omega), lfsrNextArr, if_neg (by omega), if_neg (by omega), if_pos (by omega),
      rows_eq, absorb_lanes]

end LowLatencyEthernet.CrcWide
