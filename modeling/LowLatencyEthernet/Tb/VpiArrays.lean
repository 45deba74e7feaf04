import LowLatencyEthernet.Sync.Chunks
import LowLatencyEthernet.Tb.Vpi

namespace LowLatencyEthernet.Vpi
set_option autoImplicit true

/-- The bits of byte `i`, or of what stands past the end. -/
def aBit (arr : List Byte) (i m : Nat) : Bool :=
  match arr[i]? with
  | some c => c.getLsbD m
  | none => true

def bBit (arr : List Byte) (i : Nat) : Bool := arr[i]?.isNone

theorem getLsbD_byte (c : Byte) (q : Nat) (hm : m < 32) :
    (c.setWidth 32 <<< (q * 8)).getLsbD m = (decide (m / 8 = q) && c.getLsbD (m % 8)) := by
  rw [BitVec.getLsbD_shiftLeft, BitVec.getLsbD_setWidth, decide_eq_true hm, Bool.true_and]
  rcases Nat.lt_trichotomy (m / 8) q with h | rfl | h
  · have hlt : m < q * 8 := by omega
    have hne : m / 8 ≠ q := Nat.ne_of_lt h
    simp [hlt, hne]
  · have hge : ¬ m < m / 8 * 8 := by omega
    have hsub : m - m / 8 * 8 = m % 8 := by omega
    have hlt : m % 8 < 32 := by omega
    simp [hge, hsub, hlt]
  · have hge : ¬ m < q * 8 := by omega
    have hne : m / 8 ≠ q := Nat.ne_of_gt h
    have hpast : c.getLsbD (m - q * 8) = false := BitVec.getLsbD_of_ge c _ (by omega)
    simp [hge, hne, hpast]

theorem mask_byte (c : Byte) : 0xff#32 &&& c.setWidth 32 = c.setWidth 32 := by
  apply BitVec.eq_of_getLsbD_eq
  intro i hi
  have hmask : 0xff#32 = (BitVec.allOnes 8).setWidth 32 := rfl
  rw [hmask, BitVec.getLsbD_and, BitVec.getLsbD_setWidth, BitVec.getLsbD_setWidth,
    BitVec.getLsbD_allOnes]
  by_cases h : i < 8
  · simp [h]
  · simp [h, BitVec.getLsbD_of_ge c i (Nat.not_lt.1 h)]

/-- After `n` passes the first `n` bytes are there, and the rest is zero. -/
structure Filled (arr : List Byte) (n : Nat) (v : List VecVal) : Prop where
  length : v.length = wCnt arr.length
  aval : ∀ j e, v[j]? = some e → ∀ m < 32, e.aval.getLsbD m =
    (decide (4 * j + m / 8 < n) && aBit arr (4 * j + m / 8) (m % 8))
  bval : ∀ j e, v[j]? = some e → ∀ m < 32, e.bval.getLsbD m =
    (decide (4 * j + m / 8 < n) && bBit arr (4 * j + m / 8))

theorem filled_zero (arr : List Byte) :
    Filled arr 0 (List.replicate (wCnt arr.length) ⟨0, 0⟩) where
  length := List.length_replicate
  aval := by
    intro j e he m _
    obtain rfl := List.eq_of_mem_replicate (List.mem_of_getElem? he)
    simp
  bval := by
    intro j e he m _
    obtain rfl := List.eq_of_mem_replicate (List.mem_of_getElem? he)
    simp

theorem getLsbD_charPass (arr : List Byte) (hm : m < 32) {v : List VecVal} {e : VecVal}
    (he : (charPass arr v n)[j]? = some e) : ∃ d, v[j]? = some d ∧
      e.aval.getLsbD m =
        (d.aval.getLsbD m || (decide (4 * j + m / 8 = n) && aBit arr n (m % 8))) ∧
      e.bval.getLsbD m = (d.bval.getLsbD m || (decide (4 * j + m / 8 = n) && bBit arr n)) := by
  rw [charPass, List.getElem?_modify] at he
  obtain ⟨d, hd, rfl⟩ := Option.map_eq_some_iff.1 he
  refine ⟨d, hd, ?_⟩
  by_cases hj : n / 4 = j
  · have hiff : m / 8 = n % 4 ↔ 4 * j + m / 8 = n := by omega
    have hones : (0xff#32 <<< (n % 4 * 8)).getLsbD m = decide (m / 8 = n % 4) := by
      have hlt : m % 8 < 8 := Nat.mod_lt m (by decide)
      have hbyte := getLsbD_byte (BitVec.allOnes 8) (n % 4) hm
      rwa [BitVec.getLsbD_allOnes, decide_eq_true hlt, Bool.and_true] at hbyte
    rw [if_pos hj, aBit, bBit]
    cases arr[n]? with
    | some c =>
      simp only [mask_byte, BitVec.getLsbD_or, getLsbD_byte c (n % 4) hm, hiff]
      simp
    | none =>
      simp only [BitVec.getLsbD_or, hones, hiff]
      simp
  · have hne : 4 * j + m / 8 ≠ n := by omega
    rw [if_neg hj]
    simp [hne]

theorem Filled.pass {arr : List Byte} {v : List VecVal} (h : Filled arr n v) :
    Filled arr (n + 1) (charPass arr v n) where
  length := by
    rw [charPass, List.length_modify]
    exact h.length
  aval := by
    intro j e he m hm
    obtain ⟨d, hd, ha, -⟩ := getLsbD_charPass arr hm he
    rw [ha, h.aval j d hd m hm]
    rcases Nat.lt_trichotomy (4 * j + m / 8) n with hlt | heq | hgt
    · simp [hlt, Nat.ne_of_lt hlt, Nat.lt_succ_of_lt hlt]
    · simp [heq]
    · have hge : ¬ 4 * j + m / 8 < n := by omega
      have hge' : ¬ 4 * j + m / 8 < n + 1 := by omega
      simp [hge, hge', Nat.ne_of_gt hgt]
  bval := by
    intro j e he m hm
    obtain ⟨d, hd, -, hb⟩ := getLsbD_charPass arr hm he
    rw [hb, h.bval j d hd m hm]
    rcases Nat.lt_trichotomy (4 * j + m / 8) n with hlt | heq | hgt
    · simp [hlt, Nat.ne_of_lt hlt, Nat.lt_succ_of_lt hlt]
    · simp [heq]
    · have hge : ¬ 4 * j + m / 8 < n := by omega
      have hge' : ¬ 4 * j + m / 8 < n + 1 := by omega
      simp [hge, hge', Nat.ne_of_gt hgt]

theorem filled_range (arr : List Byte) (n : Nat) : Filled arr n
    ((List.range n).foldl (charPass arr) (List.replicate (wCnt arr.length) ⟨0, 0⟩)) := by
  induction n with
  | zero => exact filled_zero arr
  | succ n ih =>
    rw [List.range_succ, List.foldl_append]
    exact ih.pass

theorem le_wCnt (len : Nat) : 8 * len ≤ 32 * wCnt len := by
  unfold wCnt
  split <;> omega

/-- The bits of an array are those of its bytes, and the rest of the last word is unknown. -/
theorem bit_charVarArr (arr : List Byte) (k : Nat) : (putLogicCharVarArr arr).bit k =
    match arr[k / 8]? with
    | some c => some (.of (c.getLsbD (k % 8)) false)
    | none => if k < 32 * wCnt arr.length then some .x else none := by
  have hfilled := filled_range arr (wCnt arr.length * 4)
  have hle := le_wCnt arr.length
  rw [putLogicCharVarArr, Value.bit]
  generalize (List.range (wCnt arr.length * 4)).foldl (charPass arr)
    (List.replicate (wCnt arr.length) ⟨0, 0⟩) = v at hfilled
  have hlength := hfilled.length
  rcases Nat.lt_or_ge (k / 32) v.length with hk | hk
  · have he : v[k / 32]? = some v[k / 32] := List.getElem?_eq_getElem hk
    have hm : k % 32 < 32 := Nat.mod_lt k (by decide)
    have hplace : 4 * (k / 32) + k % 32 / 8 = k / 8 := by omega
    have hbit : k % 32 % 8 = k % 8 := by omega
    have hdone : k / 8 < wCnt arr.length * 4 := by omega
    have hlt : k < 32 * wCnt arr.length := by omega
    have ha := hfilled.aval _ _ he _ hm
    have hb := hfilled.bval _ _ he _ hm
    rw [hplace, decide_eq_true hdone, Bool.true_and] at ha hb
    rw [hbit] at ha
    rw [he, Option.map_some, ha, hb, aBit, bBit]
    cases arr[k / 8]? with
    | some c => rfl
    | none =>
      rw [if_pos hlt]
      rfl
  · have hpast : arr.length ≤ k / 8 := by omega
    have hlt : ¬ k < 32 * wCnt arr.length := by omega
    rw [List.getElem?_eq_none hk, List.getElem?_eq_none hpast, if_neg hlt]
    rfl

/-- After `n` passes the first `n` words are there. -/
structure Stored (arr : List (BitVec 64)) (n : Nat) (v : List VecVal) : Prop where
  length : v.length = arr.length * 2
  stored : ∀ i < n, v[i]? = arr[i / 2]?.map fun a => ⟨(a >>> (i % 2 * 32)).setWidth 32, 0⟩

theorem Stored.pass {arr : List (BitVec 64)} {v : List VecVal} (h : Stored arr n v)
    (hn : n < arr.length * 2) : Stored arr (n + 1) (uint64Pass arr v n) := by
  have hlt : n / 2 < arr.length := by omega
  have hpass : uint64Pass arr v n = v.set n ⟨(arr[n / 2] >>> (n % 2 * 32)).setWidth 32, 0⟩ := by
    rw [uint64Pass, List.getElem?_eq_getElem hlt]
  rw [hpass]
  constructor
  · rw [List.length_set]
    exact h.length
  · intro i hi
    rcases Nat.eq_or_lt_of_le (Nat.le_of_lt_succ hi) with rfl | hi
    · rw [List.getElem?_set_self (by rw [h.length]; exact hn), List.getElem?_eq_getElem hlt]
      rfl
    · rw [List.getElem?_set_ne (Nat.ne_of_gt hi)]
      exact h.stored i hi

theorem stored_range (arr : List (BitVec 64)) (hn : n ≤ arr.length * 2) : Stored arr n
    ((List.range n).foldl (uint64Pass arr) (List.replicate (arr.length * 2) ⟨0, 0⟩)) := by
  induction n with
  | zero => exact ⟨List.length_replicate, fun i hi => absurd hi (Nat.not_lt_zero i)⟩
  | succ n ih =>
    rw [List.range_succ, List.foldl_append]
    exact (ih (Nat.le_of_succ_le hn)).pass hn

theorem bit_uint64VarArr (arr : List (BitVec 64)) (k : Nat) : (putLogicUint64VarArr arr).bit k =
    arr[k / 64]?.map fun a => .of (a.getLsbD (k % 64)) false := by
  have hstored := stored_range arr (Nat.le_refl _)
  rw [putLogicUint64VarArr, Value.bit]
  generalize (List.range (arr.length * 2)).foldl (uint64Pass arr)
    (List.replicate (arr.length * 2) ⟨0, 0⟩) = v at hstored
  have hlength := hstored.length
  have hhalf : k / 32 / 2 = k / 64 := by omega
  rcases Nat.lt_or_ge (k / 32) (arr.length * 2) with hk | hk
  · have hplace : k / 32 % 2 * 32 + k % 32 = k % 64 := by omega
    have hm : k % 32 < 32 := Nat.mod_lt k (by decide)
    rw [hstored.stored _ hk, hhalf, Option.map_map]
    congr 1
    funext a
    simp [hm, hplace]
  · have hpast : arr.length ≤ k / 64 := by omega
    rw [List.getElem?_eq_none (by omega), List.getElem?_eq_none hpast]
    rfl

theorem Logic.of_inj (h : Logic.of a b = Logic.of c d) : a = c ∧ b = d := by
  revert h
  cases a <;> cases b <;> cases c <;> cases d <;> decide

theorem vector_ext {v v' : List VecVal}
    (h : ∀ k, (Value.vector v).bit k = (Value.vector v').bit k) : v = v' := by
  apply List.ext_getElem?
  intro j
  have hword (m : Nat) (hm : m < 32) :
      v[j]?.map (fun e => Logic.of (e.aval.getLsbD m) (e.bval.getLsbD m)) =
      v'[j]?.map fun e => Logic.of (e.aval.getLsbD m) (e.bval.getLsbD m) := by
    have hk := h (32 * j + m)
    have hdiv : (32 * j + m) / 32 = j := by omega
    have hmod : (32 * j + m) % 32 = m := by omega
    rwa [Value.bit, Value.bit, hdiv, hmod] at hk
  cases hv : v[j]? with
  | none =>
    have h0 := hword 0 (by decide)
    rw [hv, Option.map_none] at h0
    exact (Option.map_eq_none_iff.1 h0.symm).symm
  | some e =>
    obtain ⟨e', he'⟩ : ∃ e', v'[j]? = some e' := by
      have h0 := hword 0 (by decide)
      rw [hv, Option.map_some] at h0
      obtain ⟨e', he', -⟩ := Option.map_eq_some_iff.1 h0.symm
      exact ⟨e', he'⟩
    have hbits (m : Nat) (hm : m < 32) :
        e.aval.getLsbD m = e'.aval.getLsbD m ∧ e.bval.getLsbD m = e'.bval.getLsbD m := by
      have hm := hword m hm
      rw [hv, he', Option.map_some, Option.map_some] at hm
      exact Logic.of_inj (Option.some.inj hm)
    have ha : e.aval = e'.aval := BitVec.eq_of_getLsbD_eq fun m hm => (hbits m hm).1
    have hb : e.bval = e'.bval := BitVec.eq_of_getLsbD_eq fun m hm => (hbits m hm).2
    rw [he']
    obtain ⟨ea, eb⟩ := e
    exact congrArg some (congr (congrArg VecVal.mk ha) hb)

theorem getElem?_lanes64 (arr : List (BitVec 64)) (i : Nat) :
    (arr.flatMap fun a => laneBytes a 8)[i]? =
      arr[i / 8]?.map fun a => a.extractLsb' (8 * (i % 8)) 8 := by
  have hchunked : Sync.Chunked 8 (arr.map fun a => laneBytes a 8) := by
    have hlen : ∀ c ∈ arr.map fun a => laneBytes a 8, c.length = 8 := by
      intro c hc
      obtain ⟨a, -, rfl⟩ := List.mem_map.1 hc
      exact length_laneBytes a 8
    exact ⟨fun k c hc _ => hlen c (List.mem_of_getElem? hc), fun c hc => Nat.le_of_eq (hlen c hc)⟩
  rw [List.flatMap_def]
  cases ha : arr[i / 8]? with
  | none =>
    have hle := hchunked.length_flatten_le
    have hlen := List.getElem?_eq_none_iff.1 ha
    rw [List.length_map] at hle
    rw [List.getElem?_eq_none (by omega)]
    rfl
  | some a =>
    have hmod : i % 8 < 8 := Nat.mod_lt i (by decide)
    have hc : (arr.map fun a => laneBytes a 8)[i / 8]? = some (laneBytes a 8) := by
      rw [List.getElem?_map, ha, Option.map_some]
    have hget := hchunked.getElem?_flatten hc hmod
    rwa [Nat.div_add_mod, getElem?_laneBytes a hmod] at hget

theorem uint64VarArr_eq (arr : List (BitVec 64)) :
    putLogicUint64VarArr arr = putLogicCharVarArr (arr.flatMap fun a => laneBytes a 8) := by
  apply congrArg Value.vector
  apply vector_ext
  intro k
  refine (bit_uint64VarArr arr k).trans ((bit_charVarArr _ k).trans ?_).symm
  have hdiv : k / 8 / 8 = k / 64 := by omega
  rw [getElem?_lanes64, hdiv]
  cases ha : arr[k / 64]? with
  | some a =>
    have hm : k % 8 < 8 := Nat.mod_lt k (by decide)
    have hplace : 8 * (k / 8 % 8) + k % 8 = k % 64 := by omega
    simp [hm, hplace]
  | none =>
    have hlen := List.getElem?_eq_none_iff.1 ha
    have hbytes : (arr.flatMap fun a => laneBytes a 8).length = arr.length * 8 := by
      simp [List.length_flatMap, Nat.mul_comm]
    have hcnt : wCnt (arr.length * 8) = arr.length * 2 := by
      unfold wCnt
      split <;> omega
    rw [Option.map_none, Option.map_none, hbytes, hcnt]
    exact if_neg (by omega)

theorem uint64_eq (var : BitVec 64) :
    putLogicUint64 var = putLogicCharVarArr (laneBytes var 8) := by
  have hone : putLogicUint64 var = putLogicUint64VarArr [var] := by
    simp [putLogicUint64, putLogicUint64VarArr, uint64Pass, List.range_succ]
  rw [hone, uint64VarArr_eq, List.flatMap_singleton]

theorem uint32_eq (var : BitVec 32) :
    putLogicUint32 var = putLogicCharVarArr (laneBytes var 4) := by
  apply congrArg Value.vector
  apply vector_ext
  intro k
  refine Eq.trans ?_ (bit_charVarArr _ k).symm
  rcases Nat.lt_or_ge k 32 with hk | hk
  · have hm : k % 8 < 8 := Nat.mod_lt k (by decide)
    have hdiv : k / 32 = 0 := by omega
    have hmod : k % 32 = k := by omega
    have hplace : 8 * (k / 8) + k % 8 = k := by omega
    rw [getElem?_laneBytes var (show k / 8 < 4 by omega)]
    simp [Value.bit, hm, hdiv, hmod, hplace]
  · have hpast : (laneBytes var 4).length ≤ k / 8 := by
      rw [length_laneBytes]
      omega
    have hcnt : wCnt (laneBytes var 4).length = 1 := by
      rw [length_laneBytes]
      rfl
    have hout : 1 ≤ k / 32 := by omega
    rw [List.getElem?_eq_none hpast, hcnt, Value.bit, List.getElem?_eq_none hout]
    exact (if_neg (by omega)).symm

theorem uint8_eq (var : Byte) : putLogicUint8 var = putLogicCharVarArr [var] := by
  apply congrArg Value.vector
  apply vector_ext
  intro k
  refine Eq.trans ?_ (bit_charVarArr _ k).symm
  have hcnt : wCnt [var].length = 1 := by
    rw [List.length_singleton]
    rfl
  rw [hcnt]
  rcases Nat.lt_or_ge k 32 with hk | hk
  · have hdiv : k / 32 = 0 := by omega
    have hmod : k % 32 = k := by omega
    rw [Value.bit, hdiv, hmod]
    rcases Nat.lt_or_ge k 8 with h8 | h8
    · have hzero : k / 8 = 0 := by omega
      have hbit : k % 8 = k := by omega
      have hfill : ∀ k < 8, (0xffffff00 : BitVec 32).getLsbD k = false := by decide
      have hlow := hfill k h8
      have hvar : (var.setWidth 32).getLsbD k = var.getLsbD k := by
        rw [BitVec.getLsbD_setWidth, decide_eq_true hk, Bool.true_and]
      rw [hzero, hbit, List.getElem?_cons_zero, List.getElem?_cons_zero, Option.map_some,
        BitVec.getLsbD_or, hlow, hvar, Bool.false_or]
    · have hpast : [var].length ≤ k / 8 := by
        rw [List.length_singleton]
        omega
      have hfill : ∀ k < 32, 8 ≤ k → (0xffffff00 : BitVec 32).getLsbD k = true := by decide
      have htop := hfill k hk h8
      rw [List.getElem?_eq_none hpast, if_pos (by omega), List.getElem?_cons_zero, Option.map_some,
        BitVec.getLsbD_or, htop, Bool.true_or]
      rfl
  · have hpast : [var].length ≤ k / 8 := by
      rw [List.length_singleton]
      omega
    have hout : 1 ≤ k / 32 := by omega
    rw [List.getElem?_eq_none hpast, if_neg (by omega), Value.bit, List.getElem?_eq_none hout]
    rfl

/-- A put of bytes is taken back bit by bit, unknown bits fill its last word, and every other put of
a vector is that of the bytes its numbers have, the lowest first. -/
theorem puts_bytes (arr : List Byte) (arr64 : List (BitVec 64)) (var8 : Byte) (var32 : BitVec 32)
    (var64 : BitVec 64) :
    (∀ k, (putLogicCharVarArr arr).bit k =
        match arr[k / 8]? with
        | some c => some (.of (c.getLsbD (k % 8)) false)
        | none => if k < 32 * wCnt arr.length then some .x else none) ∧
      putLogicUint8 var8 = putLogicCharVarArr [var8] ∧
      putLogicUint32 var32 = putLogicCharVarArr (laneBytes var32 4) ∧
      putLogicUint64 var64 = putLogicCharVarArr (laneBytes var64 8) ∧
      putLogicUint64VarArr arr64 = putLogicCharVarArr (arr64.flatMap fun a => laneBytes a 8) :=
  ⟨bit_charVarArr arr, uint8_eq var8, uint32_eq var32, uint64_eq var64, uint64VarArr_eq arr64⟩

end LowLatencyEthernet.Vpi
