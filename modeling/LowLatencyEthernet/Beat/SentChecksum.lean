import LowLatencyEthernet.Arith.OnesComplement
import LowLatencyEthernet.Rtl.Heads

namespace LowLatencyEthernet
set_option autoImplicit true

open OnesComplement

theorem toNat_append_eq (x : BitVec m) (y : BitVec n) :
    (x ++ y).toNat = x.toNat * 2 ^ n + y.toNat := by
  rw [BitVec.toNat_append, ← Nat.shiftLeft_add_eq_or_of_lt y.isLt, Nat.shiftLeft_eq]

theorem toNat_lanes (w : Word) : w.toNat = (lane1 w).toNat * 256 + (lane0 w).toNat := by
  have h := toNat_append_eq (lane1 w) (lane0 w)
  rwa [show lane1 w ++ lane0 w = w from lanes_lane w] at h

theorem toNat_swapLanes (w : Word) :
    (swapLanes w).toNat = (lane0 w).toNat * 256 + (lane1 w).toNat :=
  toNat_append_eq (lane0 w) (lane1 w)

theorem swapLanes_modEq (w : Word) : (swapLanes w).toNat ≡ 256 * w.toNat [MOD 2 ^ 16 - 1] := by
  have h : 256 * w.toNat = (swapLanes w).toNat + (lane1 w).toNat * (2 ^ 16 - 1) := by
    rw [toNat_lanes, toNat_swapLanes]
    omega
  rw [h]
  exact (Nat.add_mul_mod_self_right _ _ _).symm

theorem sum_swapLanes_modEq (ws : List Word) :
    ((ws.map swapLanes).map BitVec.toNat).sum ≡ 256 * (ws.map BitVec.toNat).sum
      [MOD 2 ^ 16 - 1] := by
  induction ws with
  | nil => exact Nat.ModEq.refl _
  | cons w ws ih =>
    simp only [List.map_cons, List.sum_cons, Nat.mul_add]
    exact (swapLanes_modEq w).add ih

theorem sum_swapLanes_eq_zero {ws : List Word}
    (h : ((ws.map swapLanes).map BitVec.toNat).sum = 0) : (ws.map BitVec.toNat).sum = 0 := by
  induction ws with
  | nil => rfl
  | cons w ws ih =>
    simp only [List.map_cons, List.sum_cons] at h ⊢
    rw [ih (Nat.eq_zero_of_add_eq_zero_left h), toNat_lanes]
    have hw := toNat_swapLanes w
    omega

/-- Words that are not all zero check out in either byte order or in none. -/
theorem sum_swapLanes_iff {ws : List Word} (hne : (ws.map BitVec.toNat).sum ≠ 0) :
    sum (ws.map swapLanes) = BitVec.allOnes 16 ↔ 2 ^ 16 - 1 ∣ (ws.map BitVec.toNat).sum := by
  have hcoprime : Nat.Coprime (2 ^ 16 - 1) 256 := by decide
  rw [sum_eq_allOnes_iff (by decide), (sum_swapLanes_modEq ws).dvd_iff (Nat.dvd_refl _),
    hcoprime.dvd_mul_left]
  exact ⟨And.left, fun h => ⟨h, fun h0 => hne (sum_swapLanes_eq_zero h0)⟩⟩

namespace Ipv4HeadTx

/-- The ten words of the header, the first byte of each being the high one. -/
def wireWords (p : Params) (dataLenI : BitVec 16) : List Word :=
  (words 16 10 (headO p dataLenI)).map swapLanes

def addrSum (p : Params) : Nat :=
  (p.srcAddr.extractLsb' 16 16).toNat + (p.srcAddr.extractLsb' 0 16).toNat +
    (p.dstAddr.extractLsb' 16 16).toNat + (p.dstAddr.extractLsb' 0 16).toNat

def fieldSum (p : Params) (dataLenI : BitVec 16) : Nat :=
  (0x4500 + 4 * p.dscp.toNat + p.enc.toNat) + (20 + dataLenI.toNat) + 0x6000 +
    (256 * p.ttl.toNat + p.protocol.toNat) + addrSum p

/-- The fields as they lie in the words of the bus, without the checksum. -/
def packedSum (p : Params) (dataLenI : BitVec 16) : Nat :=
  (0x54 + 256 * p.dscp.toNat + 16384 * p.enc.toNat) + (20 + dataLenI.toNat) + 3 +
    (p.ttl.toNat + 256 * p.protocol.toNat) + addrSum p

theorem toNat_cs (p : Params) (dataLenI : BitVec 16) :
    (cs p dataLenI).toNat = fieldSum p dataLenI % 65536 := by
  have hfirst : (version ++ ihl ++ p.dscp ++ p.enc).toNat =
      0x4500 + 4 * p.dscp.toNat + p.enc.toNat := by
    rw [toNat_append_eq, toNat_append_eq]
    change (0x45 * 2 ^ 6 + _) * 2 ^ 2 + _ = _
    omega
  have hprot : (p.ttl ++ p.protocol).toNat = 256 * p.ttl.toNat + p.protocol.toNat := by
    rw [toNat_append_eq]
    omega
  rw [cs, csBaseVal, fieldSum, addrSum]
  simp only [BitVec.toNat_add, hfirst, hprot]
  have hlen : headLen.toNat = 20 := rfl
  have hid : fragId.toNat = 0 := rfl
  have hflag : (fragFlag ++ fragOff).toNat = 0x6000 := rfl
  rw [hlen, hid, hflag]
  omega

/-- The checksum drops six carries at most. -/
theorem fieldSum_lt (p : Params) (dataLenI : BitVec 16) : fieldSum p dataLenI < 7 * 65536 := by
  have hd := p.dscp.isLt
  have he := p.enc.isLt
  have ht := p.ttl.isLt
  have hp := p.protocol.isLt
  have hl := dataLenI.isLt
  have hs₁ := (p.srcAddr.extractLsb' 16 16).isLt
  have hs₀ := (p.srcAddr.extractLsb' 0 16).isLt
  have hd₁ := (p.dstAddr.extractLsb' 16 16).isLt
  have hd₀ := (p.dstAddr.extractLsb' 0 16).isLt
  rw [fieldSum, addrSum]
  omega

theorem toNat_addr (v : BitVec 32) :
    v.toNat = (v.extractLsb' 16 16).toNat * 65536 + (v.extractLsb' 0 16).toNat := by
  rw [BitVec.extractLsb'_toNat, BitVec.extractLsb'_toNat, Nat.shiftRight_eq_div_pow]
  have h := v.isLt
  omega

theorem toNat_headO (p : Params) (h : dataLenI.toNat + 20 < 65536) :
    (headO p dataLenI).toNat ≡ packedSum p dataLenI + (cs p dataLenI).toNat [MOD 2 ^ 16 - 1] ∧
      (headO p dataLenI).toNat ≠ 0 := by
  have hlen : (totLen dataLenI).toNat = dataLenI.toNat + 20 := by
    rw [totLen, BitVec.toNat_add]
    exact Nat.mod_eq_of_lt h
  have hnum : (headO p dataLenI).toNat = 84 + 2 ^ 8 * p.dscp.toNat + 2 ^ 14 * p.enc.toNat +
      2 ^ 16 * (dataLenI.toNat + 20) + 2 ^ 48 * 3 + 2 ^ 64 * p.ttl.toNat +
      2 ^ 72 * p.protocol.toNat + 2 ^ 80 * (cs p dataLenI).toNat + 2 ^ 96 * p.srcAddr.toNat +
      2 ^ 128 * p.dstAddr.toNat := by
    simp only [headO, toNat_append_eq, hlen]
    have hv : version.toNat = 4 := rfl
    have hi : ihl.toNat = 5 := rfl
    have hid : fragId.toNat = 0 := rfl
    have hflag : fragFlag.toNat = 3 := rfl
    have hoff : fragOff.toNat = 0 := rfl
    rw [hv, hi, hid, hflag, hoff]
    omega
  have hsrc := toNat_addr p.srcAddr
  have hdst := toNat_addr p.dstAddr
  constructor
  · rw [hnum, hsrc, hdst, packedSum, addrSum, Nat.ModEq]
    omega
  · omega

/-- The header checks out when the carries that the checksum drops make up for the fields that
are packed another way than it takes them, and for the complement it does not take. -/
theorem wireWords_check_iff (p : Params) (dataLenI : BitVec 16) (h : dataLenI.toNat + 20 < 65536) :
    sum (wireWords p dataLenI) = BitVec.allOnes 16 ↔
      (packedSum p dataLenI + fieldSum p dataLenI) % 65535 = fieldSum p dataLenI / 65536 := by
  obtain ⟨hmod, hne⟩ := toNat_headO p h
  have hwords : ((words 16 10 (headO p dataLenI)).map BitVec.toNat).sum ≡
      (headO p dataLenI).toNat [MOD 2 ^ 16 - 1] := by
    have hsum := sum_words_modEq 16 10 (headO p dataLenI)
    rwa [Nat.mod_eq_of_lt (headO p dataLenI).isLt] at hsum
  have hsum : ((words 16 10 (headO p dataLenI)).map BitVec.toNat).sum ≠ 0 := by
    intro h0
    have hz := sum_words_eq_zero 16 10 (headO p dataLenI) h0
    rw [Nat.mod_eq_of_lt (headO p dataLenI).isLt] at hz
    exact hne hz
  rw [wireWords, sum_swapLanes_iff hsum, (hwords.trans hmod).dvd_iff (Nat.dvd_refl _), toNat_cs]
  have hcarries := fieldSum_lt p dataLenI
  omega

def defaults : Params := { srcAddr := 0xcec87f80, dstAddr := 0xcec87f80 }

theorem wireWords_check_20650 : (20650 : BitVec 16).toNat + 20 < 65536 ∧
    sum (wireWords defaults 20650) = BitVec.allOnes 16 :=
  ⟨by decide, (wireWords_check_iff defaults 20650 (by decide)).2 (by decide)⟩

theorem wireWords_no_check_8 : (8 : BitVec 16).toNat + 20 < 65536 ∧
    sum (wireWords defaults 8) ≠ BitVec.allOnes 16 := by
  decide +kernel

end Ipv4HeadTx

end LowLatencyEthernet
