import LowLatencyEthernet.Rtl.CrcWide
import LowLatencyEthernet.Rtl.MacRx32
import LowLatencyEthernet.Rtl.MacRx64

namespace LowLatencyEthernet
set_option autoImplicit true

open CrcWide (Width)

namespace WideCheck

/-! The frame check of `mac_rx` at a wide `DATA_W`, beside the part of it that `machine` is. -/

structure Mac (w : Width) (σ ι ο : Type) where
  machine : Sync.Mealy σ ι ο
  validI : ι → Bool
  termI : ι → Bool
  lenI : ι → BitVec w.lenW
  dataI : ι → BitVec w.dataW
  /-- `fsm_head_q & cnt_q == 'd8` -/
  crcStartV : σ → Bool

structure State (σ : Type) where
  mac : σ
  crc : Crc.State

-- `undriven` is an input of `crc`.
structure In (ι : Type) where
  port : ι
  undriven : BitVec 32

structure Out (ο : Type) where
  port : ο
  crcErrO : Bool

variable {w : Width}

/-- `{data_i[7:0], data_i[15:8]}`, which leaves the bits from 16 on at zero. -/
def crcData (d : BitVec w.dataW) : BitVec w.dataW :=
  (d.extractLsb' 0 8 ++ d.extractLsb' 8 8).setWidth w.dataW

variable (m : Mac w σ ι ο)

def crcIn (s : State σ) (i : In ι) : CrcWide.In w :=
  ⟨m.validI i.port, m.lenI i.port, m.crcStartV s.mac, crcData (m.dataI i.port), i.undriven⟩

def crcZero (s : State σ) : Bool := Crc.crcO s.crc == 0

def crcErrV (s : State σ) (i : In ι) : Bool := !crcZero s && m.termI i.port && m.validI i.port

def machine : Sync.Mealy (State σ) (In ι) (Out ο) where
  next s i :=
    let mac := m.machine.next s.mac i.port
    ⟨mac, CrcWide.settle (CrcWide.next s.crc (crcIn m s i)) (crcIn m ⟨mac, s.crc⟩ i)⟩
  out s i := ⟨m.machine.out s.mac i.port, crcErrV m s i⟩

end WideCheck

def MacRx32.mac : WideCheck.Mac .w32 State In Out where
  machine := machine
  validI := In.validI
  termI := In.termI
  lenI := In.lenI
  dataI := In.dataI
  crcStartV s := s.fsmHeadQ && s.cntQ == 8

def MacRx64.mac : WideCheck.Mac .w64 State In Out where
  machine := machine
  validI := In.validI
  termI := In.termI
  lenI := In.lenI
  dataI := In.dataI
  crcStartV s := s.fsmHeadQ && s.cntQ == 8

namespace WideCheck

variable {w : Width}

/-- Of a full beat the register takes zeros and the first two bytes. -/
def seenBytes (d : BitVec w.dataW) : List Byte :=
  List.replicate (w.keepW - 2) 0 ++ [d.extractLsb' 0 8, d.extractLsb' 8 8]

theorem lane_crcData (d : BitVec w.dataW) (j : Nat) : (crcData d).extractLsb' (8 * j) 8 =
    if j = 0 then d.extractLsb' 8 8 else if j = 1 then d.extractLsb' 0 8 else 0 := by
  have hw : 16 ≤ w.dataW := by cases w <;> decide
  apply BitVec.eq_of_getLsbD_eq
  intro i hi
  rw [crcData, BitVec.getLsbD_extractLsb', BitVec.getLsbD_setWidth, BitVec.getLsbD_append]
  rcases j with _ | _ | j
  · have hlt : i < w.dataW := by omega
    simp [hi, hlt]
  · have hlt : 8 + i < w.dataW := by omega
    simp [hi, hlt]
  · have hge : ¬ 8 * (j + 2) + i < 8 := by omega
    have hge' : ¬ 8 * (j + 2) + i - 8 < 8 := by omega
    simp [hge, hge']

theorem laneBytes_crcData (d : BitVec w.dataW) :
    (laneBytes (crcData d) w.keepW).reverse = seenBytes d := by
  rw [laneBytes, List.map_congr_left fun j _ => lane_crcData d j, seenBytes]
  cases w <;> rfl

theorem bytes_crcIn {m : Mac w σ ι ο} {s : State σ} {i : In ι}
    (hl : (m.lenI i.port).toNat = w.keepW) : (crcIn m s i).bytes = seenBytes (m.dataI i.port) := by
  have hl' : (crcIn m s i).lenI.toNat = w.keepW := hl
  have h1 : w.keepW ≠ 1 := by cases w <;> decide
  have h2 : w.keepW ≠ 2 := by cases w <;> decide
  rw [CrcWide.In.bytes, hl', if_neg h1, if_neg h2]
  exact laneBytes_crcData _

/-- The register after the full beat. -/
def absorbSeen (r : BitVec 32) (d : BitVec w.dataW) : BitVec 32 :=
  (seenBytes d).foldl (Lfsr.absorb Crc.poly) r

theorem lfsrQ_full {m : Mac w σ ι ο} {s : State σ} {i : In ι} (hv : m.validI i.port = true)
    (hl : (m.lenI i.port).toNat = w.keepW) : ((machine m).next s i).crc.lfsrQ =
      absorbSeen (if m.crcStartV s.mac then BitVec.allOnes 32 else s.crc.lfsrQ)
        (m.dataI i.port) := by
  have hd : (crcIn m s i).Driven := .inr (.inr hl)
  change (if m.validI i.port then CrcWide.lfsrNext s.crc (crcIn m s i) else s.crc.lfsrQ) = _
  rw [hv, if_pos rfl, CrcWide.lfsrNext_eq s.crc hd, bytes_crcIn hl]
  rfl

theorem lfsrQ_stall {m : Mac w σ ι ο} {s : State σ} {i : In ι} (hv : m.validI i.port = false) :
    ((machine m).next s i).crc.lfsrQ = s.crc.lfsrQ := by
  change (if m.validI i.port then CrcWide.lfsrNext s.crc (crcIn m s i) else s.crc.lfsrQ) = _
  rw [hv]
  rfl

end WideCheck

end LowLatencyEthernet
