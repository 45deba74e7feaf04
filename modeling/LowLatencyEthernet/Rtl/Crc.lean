import LowLatencyEthernet.Sync.Mealy
import LowLatencyEthernet.Rtl.Lanes

namespace LowLatencyEthernet.Crc
set_option autoImplicit true

/-- Exclusive or of the bits of `v` at the positions listed. -/
def xorBits (v : BitVec n) (is : List Nat) : Bool := is.foldr (fun i b => v.getLsbD i ^^ b) false

/-- A network of exclusive or gates: bit `k` of the result takes the register bits and the data bits
that row `k` lists. -/
def xorNetwork (rows : List (List Nat × List Nat)) (lfsr : BitVec 32) (data : BitVec n) :
    BitVec 32 :=
  (BitVec.ofBoolListLE (rows.map fun t => xorBits lfsr t.1 ^^ xorBits data t.2)).setWidth 32

/-- The rows `lfsr_next_arr[0][0]` to `lfsr_next_arr[0][31]`: the bits of `lfsr` and of `data8`. -/
def rows0 : List (List Nat × List Nat) :=
  [
    ([24, 30], [0, 6]),
    ([24, 25, 30, 31], [0, 1, 6, 7]),
    ([24, 25, 26, 30, 31], [0, 1, 2, 6, 7]),
    ([25, 26, 27, 31], [1, 2, 3, 7]),
    ([24, 26, 27, 28, 30], [0, 2, 3, 4, 6]),
    ([24, 25, 27, 28, 29, 30, 31], [0, 1, 3, 4, 5, 6, 7]),
    ([25, 26, 28, 29, 30, 31], [1, 2, 4, 5, 6, 7]),
    ([24, 26, 27, 29, 31], [0, 2, 3, 5, 7]),
    ([0, 24, 25, 27, 28], [0, 1, 3, 4]),
    ([1, 25, 26, 28, 29], [1, 2, 4, 5]),
    ([2, 24, 26, 27, 29], [0, 2, 3, 5]),
    ([3, 24, 25, 27, 28], [0, 1, 3, 4]),
    ([4, 24, 25, 26, 28, 29, 30], [0, 1, 2, 4, 5, 6]),
    ([5, 25, 26, 27, 29, 30, 31], [1, 2, 3, 5, 6, 7]),
    ([6, 26, 27, 28, 30, 31], [2, 3, 4, 6, 7]),
    ([7, 27, 28, 29, 31], [3, 4, 5, 7]),
    ([8, 24, 28, 29], [0, 4, 5]),
    ([9, 25, 29, 30], [1, 5, 6]),
    ([10, 26, 30, 31], [2, 6, 7]),
    ([11, 27, 31], [3, 7]),
    ([12, 28], [4]),
    ([13, 29], [5]),
    ([14, 24], [0]),
    ([15, 24, 25, 30], [0, 1, 6]),
    ([16, 25, 26, 31], [1, 2, 7]),
    ([17, 26, 27], [2, 3]),
    ([18, 24, 27, 28, 30], [0, 3, 4, 6]),
    ([19, 25, 28, 29, 31], [1, 4, 5, 7]),
    ([20, 26, 29, 30], [2, 5, 6]),
    ([21, 27, 30, 31], [3, 6, 7]),
    ([22, 28, 31], [4, 7]),
    ([23, 29], [5])]

/-- The rows `lfsr_next_arr[1][0]` to `lfsr_next_arr[1][31]`: the bits of `lfsr` and of `data_i`. -/
def rows1 : List (List Nat × List Nat) :=
  [
    ([16, 22, 25, 26, 28], [0, 6, 9, 10, 12]),
    ([16, 17, 22, 23, 25, 27, 28, 29], [0, 1, 6, 7, 9, 11, 12, 13]),
    ([16, 17, 18, 22, 23, 24, 25, 29, 30], [0, 1, 2, 6, 7, 8, 9, 13, 14]),
    ([17, 18, 19, 23, 24, 25, 26, 30, 31], [1, 2, 3, 7, 8, 9, 10, 14, 15]),
    ([16, 18, 19, 20, 22, 24, 27, 28, 31], [0, 2, 3, 4, 6, 8, 11, 12, 15]),
    ([16, 17, 19, 20, 21, 22, 23, 26, 29], [0, 1, 3, 4, 5, 6, 7, 10, 13]),
    ([17, 18, 20, 21, 22, 23, 24, 27, 30], [1, 2, 4, 5, 6, 7, 8, 11, 14]),
    ([16, 18, 19, 21, 23, 24, 26, 31], [0, 2, 3, 5, 7, 8, 10, 15]),
    ([16, 17, 19, 20, 24, 26, 27, 28], [0, 1, 3, 4, 8, 10, 11, 12]),
    ([17, 18, 20, 21, 25, 27, 28, 29], [1, 2, 4, 5, 9, 11, 12, 13]),
    ([16, 18, 19, 21, 25, 29, 30], [0, 2, 3, 5, 9, 13, 14]),
    ([16, 17, 19, 20, 25, 28, 30, 31], [0, 1, 3, 4, 9, 12, 14, 15]),
    ([16, 17, 18, 20, 21, 22, 25, 28, 29, 31], [0, 1, 2, 4, 5, 6, 9, 12, 13, 15]),
    ([17, 18, 19, 21, 22, 23, 26, 29, 30], [1, 2, 3, 5, 6, 7, 10, 13, 14]),
    ([18, 19, 20, 22, 23, 24, 27, 30, 31], [2, 3, 4, 6, 7, 8, 11, 14, 15]),
    ([19, 20, 21, 23, 24, 25, 28, 31], [3, 4, 5, 7, 8, 9, 12, 15]),
    ([0, 16, 20, 21, 24, 28, 29], [0, 4, 5, 8, 12, 13]),
    ([1, 17, 21, 22, 25, 29, 30], [1, 5, 6, 9, 13, 14]),
    ([2, 18, 22, 23, 26, 30, 31], [2, 6, 7, 10, 14, 15]),
    ([3, 19, 23, 24, 27, 31], [3, 7, 8, 11, 15]),
    ([4, 20, 24, 25, 28], [4, 8, 9, 12]),
    ([5, 21, 25, 26, 29], [5, 9, 10, 13]),
    ([6, 16, 25, 27, 28, 30], [0, 9, 11, 12, 14]),
    ([7, 16, 17, 22, 25, 29, 31], [0, 1, 6, 9, 13, 15]),
    ([8, 17, 18, 23, 26, 30], [1, 2, 7, 10, 14]),
    ([9, 18, 19, 24, 27, 31], [2, 3, 8, 11, 15]),
    ([10, 16, 19, 20, 22, 26], [0, 3, 4, 6, 10]),
    ([11, 17, 20, 21, 23, 27], [1, 4, 5, 7, 11]),
    ([12, 18, 21, 22, 24, 28], [2, 5, 6, 8, 12]),
    ([13, 19, 22, 23, 25, 29], [3, 6, 7, 9, 13]),
    ([14, 20, 23, 24, 26, 30], [4, 7, 8, 10, 14]),
    ([15, 21, 24, 25, 27, 31], [5, 8, 9, 11, 15])]

/-- `lfsr_next_arr[0]`: one byte, `data_i[15:8]`. -/
def lfsrNextArr0 (lfsr : BitVec 32) (data8 : Byte) : BitVec 32 := xorNetwork rows0 lfsr data8

/-- `lfsr_next_arr[1]`: both bytes. -/
def lfsrNextArr1 (lfsr : BitVec 32) (dataI : Word) : BitVec 32 := xorNetwork rows1 lfsr dataI

structure State where
  lfsrQ : BitVec 32
  /-- `lfsr_next` is a latch: a length that selects no row of `lfsr_next_arr` keeps it. -/
  lfsrNext : BitVec 32
deriving DecidableEq, Repr, Inhabited

structure In where
  validI : Bool
  lenI : BitVec 2
  startI : Bool
  dataI : Word

def lfsr (s : State) (i : In) : BitVec 32 := if i.startI then BitVec.allOnes 32 else s.lfsrQ

def lfsrNext (s : State) (i : In) : BitVec 32 :=
  if i.lenI = 1 then lfsrNextArr0 (lfsr s i) (lane1 i.dataI)
  else if i.lenI = 2 then lfsrNextArr1 (lfsr s i) i.dataI
  else s.lfsrNext

/-- The latch under the inputs `i`. -/
def settle (s : State) (i : In) : State := { s with lfsrNext := lfsrNext s i }

@[simp] theorem settle_lfsrQ (s : State) (i : In) : (settle s i).lfsrQ = s.lfsrQ := rfl

-- The inputs change after the clock edge, so an open latch takes the new register first.
def next (s : State) (i : In) : State :=
  settle { s with lfsrQ := if i.validI then lfsrNext s i else s.lfsrQ } i

def crcO (s : State) : BitVec 32 := s.lfsrQ

def machine : Sync.Mealy State In (BitVec 32) := ⟨next, fun s _ => crcO s⟩

end LowLatencyEthernet.Crc
