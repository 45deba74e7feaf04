import LowLatencyEthernet.Rtl.Lanes

namespace LowLatencyEthernet.Tb
set_option autoImplicit true

/-! What the test bench drives and expects, `mac_intf` and `trans_data` with `DATA_WIDTH = 16`. A
failed `assert` is `none`. -/

def dataWidthByte : Nat := 2

abbrev DebugId := BitVec 32

inductive MacIntfE where
  | invalid
  | start
  | term1
  | term2
  | error
  | data
deriving DecidableEq, Repr

def MacIntfE.value : MacIntfE → Nat
  | .invalid => 0
  | .start => 1
  | .term1 => 3
  | .term2 => 4
  | .error => 11
  | .data => 12

/-- The enumerator of a value. A value without one fails in `fill_mac_intf`. -/
def MacIntfE.ofValue : Nat → Option MacIntfE
  | 0 => some .invalid
  | 1 => some .start
  | 3 => some .term1
  | 4 => some .term2
  | 11 => some .error
  | 12 => some .data
  | _ => none

structure MacIntf where
  valid : Bool
  cancel : Bool
  ctrl : Bool
  data : Word
  start : Bool
  term : Bool
  len : BitVec 8
  id : DebugId
deriving DecidableEq, Repr

def zeroMacIntf : MacIntf := ⟨false, false, false, 0, false, false, 0, 0⟩

def fillMacIntf (state : MacIntfE) (data : Word) (dataLen : BitVec 8) (id : DebugId) :
    Option MacIntf :=
  let mac := { zeroMacIntf with id := id }
  if state = .invalid then some mac
  else
    let mac := { mac with valid := true, data := data, len := dataLen, ctrl := true }
    match state with
    | .start => some { mac with start := true }
    | .term1 => if dataLen = 1 then some { mac with term := true } else none
    | .term2 => if dataLen = 2 then some { mac with term := true } else none
    | .error => some { mac with cancel := true }
    -- all but data is control
    | .data => some { mac with ctrl := false }
    | .invalid => some mac

def getMacTerm (dataLen : Nat) : Option MacIntfE :=
  if dataLen ≤ 7 ∧ dataLen ≠ 0 ∧ dataLen ≤ 2 then
    MacIntfE.ofValue (MacIntfE.term1.value + dataLen - 1)
  else none

inductive TransDataState where
  | invalid
  | data
  | start
  | term
deriving DecidableEq, Repr

structure TransData where
  len : BitVec 8
  data : Word
  state : TransDataState
  id : DebugId
deriving DecidableEq, Repr

def fillTransData (len : BitVec 8) (data : Word) (state : TransDataState) (id : DebugId) :
    Option TransData :=
  if len.toNat ≤ 16 / 8 then some ⟨len, data, state, id⟩ else none

/-- The beat of a state that is not invalid. -/
def beatOf (state : MacIntfE) (data : Word) (dataLen : BitVec 8) (id : DebugId) : MacIntf where
  valid := true
  cancel := decide (state = .error)
  ctrl := decide (state ≠ .data)
  data := data
  start := decide (state = .start)
  term := decide (state = .term1 ∨ state = .term2)
  len := dataLen
  id := id

theorem fillMacIntf_eq {id : DebugId} (hi : state ≠ .invalid) (h1 : state = .term1 → dataLen = 1)
    (h2 : state = .term2 → dataLen = 2) :
    fillMacIntf state data dataLen id = some (beatOf state data dataLen id) := by
  cases state with
  | invalid => exact absurd rfl hi
  | term1 => simp [fillMacIntf, beatOf, zeroMacIntf, h1 rfl]
  | term2 => simp [fillMacIntf, beatOf, zeroMacIntf, h2 rfl]
  | start => simp [fillMacIntf, beatOf, zeroMacIntf]
  | error => simp [fillMacIntf, beatOf, zeroMacIntf]
  | data => simp [fillMacIntf, beatOf, zeroMacIntf]

/-- The term state of the one or two bytes that are left. -/
def termState (n : Nat) : MacIntfE := if n = 1 then .term1 else .term2

theorem getMacTerm_eq (h1 : 1 ≤ n) (h2 : n ≤ 2) : getMacTerm n = some (termState n) := by
  have h : n = 1 ∨ n = 2 := by omega
  rcases h with rfl | rfl <;> rfl

theorem fillTransData_eq {id : DebugId} (h : n ≤ 2) :
    fillTransData (BitVec.ofNat 8 n) data state id =
      some ⟨BitVec.ofNat 8 n, data, state, id⟩ := by
  have hn : (BitVec.ofNat 8 n).toNat ≤ 16 / 8 := by
    rw [BitVec.toNat_ofNat, Nat.mod_eq_of_lt (by omega)]
    exact h
  rw [fillTransData, if_pos hn]

end LowLatencyEthernet.Tb
