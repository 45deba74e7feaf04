import LowLatencyEthernet.Sync.Chunks
import LowLatencyEthernet.Rtl.MacRx

namespace LowLatencyEthernet
set_option autoImplicit true

open Sync

/-- The bytes of the first `len` lanes of a beat. -/
def laneBytes (w : BitVec n) (len : Nat) : List Byte :=
  (List.range len).map fun j => w.extractLsb' (8 * j) 8

@[simp] theorem length_laneBytes (w : BitVec n) (len : Nat) : (laneBytes w len).length = len := by
  simp [laneBytes]

theorem getElem?_laneBytes (w : BitVec n) (hj : j < len) :
    (laneBytes w len)[j]? = some (w.extractLsb' (8 * j) 8) := by
  simp [laneBytes, hj]

theorem lane_eq {w : BitVec n} (h : (laneBytes w len)[j]? = some a) :
    w.extractLsb' (8 * j) 8 = a := by
  have hj : j < len := by
    rw [← length_laneBytes w len]
    exact (List.getElem?_eq_some_iff.1 h).1
  rw [getElem?_laneBytes w hj] at h
  exact Option.some.inj h

theorem extractLsb'_lanes (w : BitVec n) (a : Nat) :
    w.extractLsb' a 16 = lanes (w.extractLsb' a 8) (w.extractLsb' (a + 8) 8) := by
  have h0 : lane0 (w.extractLsb' a 16) = w.extractLsb' a 8 :=
    extractLsb'_field w (by decide)
  have h1 : lane1 (w.extractLsb' a 16) = w.extractLsb' (a + 8) 8 :=
    extractLsb'_field w (by decide)
  rw [← h0, ← h1, lanes_lane]

theorem wordBytes_full (w : Word) : wordBytes w 2#2 = [lane0 w, lane1 w] := rfl

/-- A frame on the wire, from its preamble on: the two addresses, a tag or none, the Ethertype and
what follows it. The words are as they stand on the bus. -/
structure EthernetFrame where
  mac : List Byte
  tag : Option Word
  ethertype : Word
  payload : List Byte
  mac_length : mac.length = 20
  ethertype_ne : tag = none → ethertype ≠ MacRx.tpic
  payload_ne : payload ≠ []

theorem length_zeros : (List.replicate 20 (0 : Byte)).length = 20 := rfl

namespace EthernetFrame

def tagBytes (f : EthernetFrame) : List Byte :=
  match f.tag with
  | none => []
  | some tci => wordBytes MacRx.tpic 2 ++ wordBytes tci 2

def bytes (f : EthernetFrame) : List Byte :=
  f.mac ++ f.tagBytes ++ wordBytes f.ethertype 2 ++ f.payload

def typeOffset (f : EthernetFrame) : Nat := 20 + f.tagBytes.length

theorem tagBytes_length_cases (f : EthernetFrame) :
    (f.tag = none ∧ f.typeOffset = 20) ∨ (f.tag ≠ none ∧ f.typeOffset = 24) := by
  unfold typeOffset tagBytes
  cases f.tag with
  | none => exact .inl ⟨rfl, rfl⟩
  | some tci => exact .inr ⟨nofun, rfl⟩

theorem length_bytes (f : EthernetFrame) :
    f.bytes.length = f.typeOffset + 2 + f.payload.length := by
  have ht : (wordBytes f.ethertype 2).length = 2 := rfl
  rw [bytes, List.length_append, List.length_append, List.length_append, f.mac_length, ht,
    typeOffset]

/-- The two bytes at offset 20 are the tag protocol identifier or, without a tag, the Ethertype. -/
def idWord (f : EthernetFrame) : Word := if f.tag = none then f.ethertype else MacRx.tpic

theorem idWord_bytes (f : EthernetFrame) : f.bytes[20]? = some (lane0 f.idWord) ∧
    f.bytes[21]? = some (lane1 f.idWord) := by
  have hmac := f.mac_length
  unfold bytes tagBytes idWord
  cases f.tag with
  | none => simp [wordBytes_full, List.getElem?_append_right, hmac]
  | some tci => simp [wordBytes_full, List.getElem?_append_right, hmac]

theorem ethertype_bytes (f : EthernetFrame) :
    f.bytes[f.typeOffset]? = some (lane0 f.ethertype) ∧
      f.bytes[f.typeOffset + 1]? = some (lane1 f.ethertype) := by
  have hmac := f.mac_length
  unfold bytes typeOffset tagBytes
  cases f.tag with
  | none => simp [wordBytes_full, List.getElem?_append_right, hmac]
  | some tci => simp [wordBytes_full, List.getElem?_append_right, hmac]

end EthernetFrame

end LowLatencyEthernet
