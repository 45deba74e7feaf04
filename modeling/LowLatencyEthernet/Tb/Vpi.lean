import LowLatencyEthernet.Beat.WideFrames

namespace LowLatencyEthernet.Vpi
set_option autoImplicit true

/-! How the test bench hands numbers to the simulator, `vpi_utils`. -/

/-- What a bit of a `logic` can be. -/
inductive Logic where
  | zero
  | one
  | z
  | x
deriving DecidableEq, Repr

/-- `s_vpi_vecval`, two bits for each of 32 places. -/
structure VecVal where
  aval : BitVec 32
  bval : BitVec 32
deriving DecidableEq, Repr

inductive Value where
  | scalar (b : Bool)
  | vector (v : List VecVal)
deriving DecidableEq, Repr

def putLogic1b (var : Byte) : Value := .scalar (var != 0)

def putLogicUint8 (var : Byte) : Value :=
  .vector [⟨0xffffff00 ||| var.setWidth 32, 0xffffff00⟩]

def putLogicUint32 (var : BitVec 32) : Value := .vector [⟨var, 0⟩]

def putLogicUint16 (var : BitVec 16) : Value := putLogicUint32 (var.setWidth 32)

def putLogicUint64 (var : BitVec 64) : Value :=
  .vector [⟨var.setWidth 32, 0⟩, ⟨(var >>> 32).setWidth 32, 0⟩]

def wCnt (len : Nat) : Nat := len * 8 / 32 + if len * 8 % 32 ≠ 0 then 1 else 0

def charPass (arr : List Byte) (v : List VecVal) (i : Nat) : List VecVal :=
  let off := i % 4 * 8
  v.modify (i / 4) fun e =>
    match arr[i]? with
    | some c => ⟨e.aval ||| (0xff#32 &&& c.setWidth 32) <<< off, e.bval ||| 0#32 <<< off⟩
    | none => ⟨e.aval ||| 0xff#32 <<< off, e.bval ||| 0xff#32 <<< off⟩

def putLogicCharVarArr (arr : List Byte) : Value :=
  .vector ((List.range (wCnt arr.length * 4)).foldl (charPass arr)
    (List.replicate (wCnt arr.length) ⟨0, 0⟩))

/-- A pass of the loop over the words of the 64 bit numbers. -/
def uint64Pass (arr : List (BitVec 64)) (v : List VecVal) (i : Nat) : List VecVal :=
  match arr[i / 2]? with
  | some a => v.set i ⟨(a >>> (i % 2 * 32)).setWidth 32, 0⟩
  | none => v

def putLogicUint64VarArr (arr : List (BitVec 64)) : Value :=
  .vector ((List.range (arr.length * 2)).foldl (uint64Pass arr)
    (List.replicate (arr.length * 2) ⟨0, 0⟩))

def putLiteLogicUint64VarArr (arr : List (BitVec 64)) : Value := putLogicUint64VarArr arr

def Logic.of (a b : Bool) : Logic :=
  if b then (if a then .x else .z) else (if a then .one else .zero)

/-- The value of a bit, or none past the end of the value. -/
def Value.bit : Value → Nat → Option Logic
  | .scalar b, k => if k = 0 then some (.of b false) else none
  | .vector v, k => v[k / 32]?.map fun e => .of (e.aval.getLsbD (k % 32)) (e.bval.getLsbD (k % 32))

end LowLatencyEthernet.Vpi
