import LowLatencyEthernet.Rtl.Lanes

namespace LowLatencyEthernet.TbRand
set_option autoImplicit true

/-- The macro `LFSR`. -/
def lfsr (x : BitVec 16) : BitVec 16 :=
  (x >>> 1) ||| (((x >>> 0) ^^^ (x >>> 2) ^^^ (x >>> 3) ^^^ (x >>> 5)) &&& 1) <<< 15

structure State where
  lfsrInit : Bool
  lfsr : BitVec 16
deriving DecidableEq, Repr

def packetLenMax : Nat := 1500

def packetLenMin : Nat := 50

def tbRandInit (seed : BitVec 16) : State := ⟨true, seed⟩

-- The build may set `SEED` to another number than 10.
variable (seed : BitVec 16)

/-- `LFSR_INIT`, the first call starts the register. -/
def start (s : State) : State := if s.lfsrInit = false then tbRandInit seed else s

def tick (s : State) : State := { s with lfsr := TbRand.lfsr s.lfsr }

def getPacketLen (s : State) : BitVec 16 × State :=
  let s := tick (start seed s)
  (BitVec.ofNat 16 (s.lfsr.toNat % (packetLenMax - packetLenMin)) + BitVec.ofNat 16 packetLenMin, s)

/-- The loop of the wide numbers, `n` passes being left. -/
def wideLoop (n i : Nat) (r : BitVec 64) (s : State) : BitVec 64 × State :=
  match n with
  | 0 => (r, s)
  | n + 1 =>
    let s := tick s
    wideLoop n (i + 1) (r ||| s.lfsr.setWidth 64 <<< (16 * i)) s

def uint64 (s : State) : BitVec 64 × State := wideLoop 4 0 0 (start seed s)

def uint32 (s : State) : BitVec 32 × State :=
  let (r, s) := wideLoop 2 0 0 (start seed s)
  (r.setWidth 32, s)

/-- The loop of the addresses. An odd byte is shifted out of its eight bits. -/
def uint48Loop (n i : Nat) (r : Vector Byte 6) (s : State) : Vector Byte 6 × State :=
  match n with
  | 0 => (r, s)
  | n + 1 =>
    let s := if i % 2 = 0 then tick s else s
    let byte := ((s.lfsr.setWidth 8).setWidth 32 <<< (8 * (i % 2))).setWidth 8
    uint48Loop n (i + 1) (r.setIfInBounds i byte) s

-- The zeros stand for what `malloc` leaves.
def uint48 (s : State) : Vector Byte 6 × State :=
  uint48Loop 6 0 (Vector.replicate 6 0) (start seed s)

def uint8 (s : State) : BitVec 8 × State :=
  let s := tick (start seed s)
  (s.lfsr.setWidth 8, s)

def uint16 (s : State) : BitVec 16 × State :=
  let s := tick (start seed s)
  (s.lfsr, s)

def fillLoop (s : State) : Nat → List Byte × State
  | 0 => ([], s)
  | n + 1 =>
    let s := tick s
    let (p, s') := fillLoop s n
    (s.lfsr.setWidth 8 :: p, s')

def fillPacket (s : State) (len : Nat) : List Byte × State := fillLoop (start seed s) len

end LowLatencyEthernet.TbRand
