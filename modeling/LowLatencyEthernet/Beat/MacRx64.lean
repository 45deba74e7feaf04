import LowLatencyEthernet.Sync.Presented
import LowLatencyEthernet.Rtl.MacRx64
import LowLatencyEthernet.Beat.WideFrames

namespace LowLatencyEthernet.MacRx64
set_option autoImplicit true

open Sync
open MacRx (ipv4 tpic)

def beat (i : In) : Option In := if i.validI then some i else none

theorem beat_eq_some : beat i = some b ↔ i.validI = true ∧ b = i := by
  cases h : i.validI <;> simp [beat, h, eq_comm]

theorem beat_eq_none : beat i = none ↔ i.validI = false := by
  cases h : i.validI <;> simp [beat, h]

def beatBytes (i : In) : List Byte := laneBytes i.dataI (if i.termI then i.lenI.toNat else 8)

/-- A frame that starts on the second lane has four bytes of something else before it. -/
def leadLen (second : Bool) : Nat := if second then 4 else 0

def startOf (second : Bool) : BitVec 2 := if second then 2 else 1

structure Carries (second : Bool) (f : List In) (bs : List Byte) : Prop where
  start : ∀ k b, f[k]? = some b → b.startI = if k = 0 then startOf second else 0
  term : ∀ k b, f[k]? = some b → (b.termI = true ↔ k + 1 = f.length)
  uncancelled : ∀ b ∈ f, b.cancelI = false
  len : ∀ b ∈ f, b.termI = true → 1 ≤ b.lenI.toNat ∧ b.lenI.toNat ≤ 8
  bytes : ∃ lead, lead.length = leadLen second ∧ f.flatMap beatBytes = lead ++ bs

section

variable {second : Bool} {f : List In} {bs : List Byte}

theorem Carries.not_term (h : Carries second f bs) (hb : f[k]? = some b) (hk : k + 1 < f.length) :
    b.termI = false :=
  Bool.eq_false_iff.2 fun ht => Nat.ne_of_lt hk ((h.term k b hb).1 ht)

theorem Carries.chunked (h : Carries second f bs) : Chunked 8 (f.map beatBytes) := by
  apply chunked_of_last h.term
  · intro b _ ht
    rw [beatBytes, ht, length_laneBytes]
    rfl
  · intro b hb ht
    rw [beatBytes, ht, length_laneBytes]
    exact (h.len b hb ht).2

theorem Carries.byte (h : Carries second f bs) (hb : f[k]? = some b) (hj : j < 8)
    (hn : 8 * k + j = leadLen second + n) (ha : bs[n]? = some a) :
    b.dataI.extractLsb' (8 * j) 8 = a := by
  obtain ⟨lead, hlead, hbytes⟩ := h.bytes
  have hc : (f.map beatBytes)[k]? = some (beatBytes b) := by
    rw [List.getElem?_map, hb, Option.map_some]
  have hget := h.chunked.getElem?_flatten hc hj
  rw [← List.flatMap_def, hbytes, hn, ← hlead, List.getElem?_append_right (Nat.le_add_right _ _),
    Nat.add_sub_cancel_left, ha] at hget
  exact lane_eq hget.symm

theorem Carries.word (h : Carries second f bs) (hb : f[k]? = some b) (hj : 4 * j < 7)
    (hn : 8 * k + 4 * j = leadLen second + n) (h0 : bs[n]? = some (lane0 w))
    (h1 : bs[n + 1]? = some (lane1 w)) : liteTypeId b j = w := by
  have hlow : b.dataI.extractLsb' (8 * (4 * j)) 8 = lane0 w := h.byte hb (by omega) hn h0
  have hhigh : b.dataI.extractLsb' (8 * (4 * j) + 8) 8 = lane1 w :=
    h.byte hb (j := 4 * j + 1) (by omega) (by omega) h1
  have hoff : 32 * j = 8 * (4 * j) := by omega
  rw [liteTypeId, hoff, extractLsb'_lanes, hlow, hhigh, lanes_lane]

theorem Carries.lt_length (h : Carries second f bs) (hk : 8 * k < leadLen second + bs.length) :
    k < f.length := by
  obtain ⟨lead, hlead, hbytes⟩ := h.bytes
  have hlt : 8 * k < (f.map beatBytes).flatten.length := by
    rwa [← List.flatMap_def, hbytes, List.length_append, hlead]
  have hlen := h.chunked.lt_length hlt
  rwa [List.length_map] at hlen

end

/-- Only the invalid bit is set. -/
structure Between (s : State) : Prop where
  invalid : s.fsmInvalidQ = true
  head : s.fsmHeadQ = false
  data : s.fsmDataQ = false

/-- The header state after `k` beats. What `type_lsb_v_q` holds depends on the cycle before, which
may be a stall. -/
structure InHead (second : Bool) (s : State) (k : Nat) : Prop where
  invalid : s.fsmInvalidQ = false
  head : s.fsmHeadQ = true
  data : s.fsmDataQ = false
  cnt : s.cntQ = BitVec.ofNat 5 (8 * k - leadLen second)
  bypass : s.bypassVQ = false

def At (second : Bool) (s : State) : Nat → Prop
  | 0 => Between s
  | k + 1 => InHead second s (k + 1)

/-- The beat with the bytes at offset 20, those of the tag or of the type. -/
def idBeat (second : Bool) : Nat := if second then 3 else 2

theorem Between.stall (h : Between s) (hv : i.validI = false) : Between (next true s i) := by
  constructor
  · simp [next, hv, h.invalid]
  · simp [next, hv, h.head]
  · simp [next, hv, h.data]

theorem InHead.stall (h : InHead second s k) (hv : i.validI = false) :
    InHead second (next true s i) k where
  invalid := by simp [next, hv, h.invalid]
  head := by simp [next, hv, h.head]
  data := by simp [next, hv, h.data]
  cnt := by simp [next, cntEn, hv, h.invalid, h.cnt]
  bypass := by simp [next, bypassVNext, typeErrV, hv, h.bypass, h.invalid]

theorem Between.start (h : Between s) (hv : i.validI = true) (hs : i.startI = startOf second)
    (hc : i.cancelI = false) : InHead second (next true s i) 1 := by
  have hl : startLite i = true := by
    rw [startLite, hs]
    cases second <;> rfl
  have hcnt : dataCnt i = BitVec.ofNat 5 (8 * 1 - leadLen second) := by
    rw [dataCnt, hl, hs]
    cases second <;> rfl
  constructor
  · simp [next, fsmInvalidNext, hv, hl, hc, h.data]
  · simp [next, fsmHeadNext, hv, hl, hc]
  · simp [next, fsmDataNext, hv, h.head, h.data]
  · simp [next, cntEn, cntNext, cntAdd, cntRst, hv, h.invalid, hcnt]
  · simp [next, bypassVNext, h.invalid]

theorem InHead.vlanIdxV_false (h : InHead second s k) (hk : 1 ≤ k) (hlt : k < idBeat second) :
    vlanIdxV s = false := by
  rw [vlanIdxV, h.cnt]
  cases second with
  | false =>
    have h1 : k = 1 := by
      have : idBeat false = 2 := rfl
      omega
    subst h1
    rfl
  | true =>
    have h12 : k = 1 ∨ k = 2 := by
      have : idBeat true = 3 := rfl
      omega
    rcases h12 with rfl | rfl <;> rfl

theorem InHead.stay (h : InHead second s k) (hk : 1 ≤ k) (hv : i.validI = true)
    (hs : i.startI = 0) (hc : i.cancelI = false) (ht : typeV s i = false) :
    InHead second (next true s i) (k + 1) := by
  have hl : startLite i = false := by
    rw [startLite, hs]
    rfl
  have hadd : BitVec.ofNat 5 (8 * k - leadLen second) + 8#5 =
      BitVec.ofNat 5 (8 * (k + 1) - leadLen second) := by
    have hle : leadLen second ≤ 4 := by cases second <;> decide
    have hsub : 8 * (k + 1) - leadLen second = 8 * k - leadLen second + 8 := by omega
    rw [hsub, BitVec.ofNat_add]
  constructor
  · simp [next, fsmInvalidNext, hv, hc, h.data, h.invalid]
  · simp [next, fsmHeadNext, hv, hc, ht, h.head]
  · simp [next, fsmDataNext, hv, ht, h.data]
  · simp [next, cntEn, cntNext, cntAdd, cntRst, dataCnt, hv, hl, h.invalid, h.cnt, hadd]
  · simp [next, bypassVNext, typeErrV, ht, h.bypass]

/-- The beats before the one with the type or the tag. -/
def Opening (second : Bool) (k : Nat) (b : In) : Prop :=
  b.startI = (if k = 0 then startOf second else 0) ∧ b.cancelI = false ∧ k < idBeat second

def count : Transducer Nat In Unit := ⟨fun k _ => k + 1, fun _ _ => none⟩

theorem count_run (k : Nat) (bs : List In) : count.run k bs = k + bs.length := by
  induction bs generalizing k with
  | nil => rfl
  | cons b bs ih =>
    have hrest := ih (k + 1)
    rw [List.length_cons]
    rw [Nat.add_assoc, Nat.add_comm 1] at hrest
    exact hrest

theorem At.inHead (h : At second s k) (hk : k ≠ 0) : InHead second s k := by
  cases k with
  | zero => exact absurd rfl hk
  | succ k => exact h

theorem At.stall (h : At second s k) (hb : beat i = none) : At second (next true s i) k := by
  have hv := beat_eq_none.1 hb
  cases k with
  | zero => exact Between.stall h hv
  | succ k => exact InHead.stall h hv

theorem At.step (h : At second s k) (hb : beat i = some b) (ho : Opening second k b) :
    At second (next true s i) (k + 1) := by
  obtain ⟨hv, rfl⟩ := beat_eq_some.1 hb
  obtain ⟨hs, hc, hlt⟩ := ho
  cases k with
  | zero => exact Between.start h hv hs hc
  | succ k =>
    have hidx := InHead.vlanIdxV_false h (Nat.succ_pos k) hlt
    exact InHead.stay h (Nat.succ_pos k) hv hs hc (by rw [typeV, hidx, Bool.false_and])

theorem follows (second : Bool) :
    Follows machine count beat (fun _ => none) (Opening second) (At second) where
  stall h hb := h.stall hb
  stall_out _ _ := rfl
  step h hb ho := h.step hb ho
  step_out _ _ _ := rfl

theorem InHead.second_id (h : InHead true s 3) : typeV s i = true ∧
    typeId s i = if liteTypeId i 0 = tpic then liteTypeId i 1 else liteTypeId i 0 := by
  have hcnt : s.cntQ = 20#5 := h.cnt
  have hvlan : vlanV s i = (liteTypeId i 0 == tpic) := by
    simp [vlanV, vlanIdxV, tpicV, vlanId, hcnt]
  constructor
  · simp [typeV, vlanIdxV, hcnt]
  · by_cases ht : liteTypeId i 0 = tpic <;> simp [typeId, mask, hvlan, hcnt, ht]

theorem InHead.first_id (h : InHead false s 2) :
    typeV s i = (liteTypeId i 1 != tpic || s.typeLsbVQ) ∧
      typeId s i = if s.typeLsbVQ then liteTypeId i 0 else liteTypeId i 1 := by
  have hcnt : s.cntQ = 16#5 := h.cnt
  have hvlan : vlanV s i = (liteTypeId i 1 == tpic) := by
    simp [vlanV, vlanIdxV, tpicV, vlanId, hcnt]
  constructor
  · simp [typeV, vlanIdxV, hvlan, hcnt, bne]
  · cases hl : s.typeLsbVQ <;> simp [typeId, mask, hcnt, hl]

theorem InHead.lsb_next (h : InHead false s 2) (q : In) :
    (next true s q).typeLsbVQ = (liteTypeId q 1 == tpic) := by
  have hcnt : s.cntQ = 16#5 := h.cnt
  simp [next, typeLsbVNext, vlanV, vlanIdxV, tpicV, vlanId, hcnt]

theorem InHead.lsb_first (h : InHead false s 1) (q : In) :
    (next true s q).typeLsbVQ = false := by
  have hidx := h.vlanIdxV_false (Nat.le_refl 1) (by decide)
  simp [next, typeLsbVNext, vlanV, hidx]

/-- A first lane tag takes the counter past 16, and no beat of the header state finds it there
again before the type is over. -/
theorem InHead.past (h : InHead false s 3) : typeV s i = false := by
  have hcnt : s.cntQ = 24#5 := h.cnt
  simp [typeV, vlanIdxV, hcnt]

structure InData (s : State) (bypass : Bool) : Prop where
  invalid : s.fsmInvalidQ = false
  head : s.fsmHeadQ = false
  data : s.fsmDataQ = true
  bypass : s.bypassVQ = bypass

theorem InHead.leave (h : InHead second s k) (hv : i.validI = true) (hs : i.startI = 0)
    (hc : i.cancelI = false) (ht : typeV s i = true) :
    InData (next true s i) (typeId s i != ipv4) := by
  have hl : startLite i = false := by
    rw [startLite, hs]
    rfl
  constructor
  · simp [next, fsmInvalidNext, hv, hc, h.data, h.invalid]
  · simp [next, fsmHeadNext, hv, hl, ht]
  · simp [next, fsmDataNext, hv, hc, ht, h.head]
  · simp [next, bypassVNext, typeErrV, hv, ht, h.bypass, h.invalid, h.head]

theorem InData.next (h : InData s bp)
    (hi : i.validI = true → i.startI = 0 ∧ i.cancelI = false ∧ i.termI = false) :
    InData (MacRx64.next true s i) bp := by
  cases hv : i.validI with
  | false =>
    constructor
    · simp [MacRx64.next, hv, h.invalid]
    · simp [MacRx64.next, hv, h.head]
    · simp [MacRx64.next, hv, h.data]
    · simp [MacRx64.next, bypassVNext, typeErrV, h.head, h.bypass, h.invalid]
  | true =>
    obtain ⟨hs, hc, ht⟩ := hi hv
    have hl : startLite i = false := by
      rw [startLite, hs]
      rfl
    constructor
    · simp [MacRx64.next, fsmInvalidNext, hv, hc, ht, h.invalid]
    · simp [MacRx64.next, fsmHeadNext, hv, hl, h.head]
    · simp [MacRx64.next, fsmDataNext, hv, hc, ht, h.data]
    · simp [MacRx64.next, bypassVNext, typeErrV, h.head, h.bypass, h.invalid]

theorem InData.run {is : List In} (h : InData s bp)
    (hi : ∀ b ∈ is.filterMap beat, b.startI = 0 ∧ b.cancelI = false ∧ b.termI = false) :
    InData (machine.run s is) bp := by
  induction is generalizing s with
  | nil => exact h
  | cons i is ih =>
    apply ih
    · apply h.next
      intro hv
      have hb : beat i = some i := beat_eq_some.2 ⟨hv, rfl⟩
      exact hi i (List.mem_filterMap.2 ⟨i, List.mem_cons_self, hb⟩)
    · intro b hb
      obtain ⟨j, hj, hbj⟩ := List.mem_filterMap.1 hb
      exact hi b (List.mem_filterMap.2 ⟨j, List.mem_cons_of_mem i hj, hbj⟩)

theorem InData.validO_eq (h : InData s bp) (hv : i.validI = true) : validO s i = !bp := by
  simp [validO, dataLiteV, hv, h.data, h.bypass]

/-- The cycle `i`, which comes after those of `pre`, carries beat `k`. -/
structure Reaches (is pre : List In) (i : In) (k : Nat) : Prop where
  split : ∃ post, is = pre ++ i :: post
  valid : i.validI = true
  count : (pre.filterMap beat).length = k

def typeBeat (fr : EthernetFrame) (second : Bool) : Nat := (leadLen second + fr.typeOffset) / 8

/-- The header state is left on the beat with the Ethertype and on no other, and there `type_id`
is the Ethertype. -/
structure Detected (fr : EthernetFrame) (second : Bool) (s : State) (is : List In) : Prop where
  left : ∀ pre i k, Reaches is pre i k →
    ((machine.run s pre).fsmHeadQ = true ∧ (machine.run s (pre ++ [i])).fsmHeadQ = false ↔
      k = typeBeat fr second)
  typed : ∀ pre i, Reaches is pre i (typeBeat fr second) →
    typeId (machine.run s pre) i = fr.ethertype

/-- The beats of the frame from that of the Ethertype on are passed on if the Ethertype is IPv4, and
no beat otherwise. -/
def Passed (fr : EthernetFrame) (second : Bool) (s : State) (is : List In) : Prop :=
  ∀ pre i k, Reaches is pre i k →
    (validO (machine.run s pre) i = true ↔ typeBeat fr second ≤ k ∧ fr.ethertype = ipv4)

def PassedAfter (fr : EthernetFrame) (second : Bool) (s : State) (is : List In) : Prop :=
  ∀ pre i k, Reaches is pre i k → typeBeat fr second < k →
    (validO (machine.run s pre) i = true ↔ fr.ethertype = ipv4)

/-- A stall right before the third beat shows the tag protocol identifier in the lanes of the
type. -/
def Stray (is : List In) : Prop :=
  ∃ pre q i, Reaches is (pre ++ [q]) i 2 ∧ q.validI = false ∧ liteTypeId q 1 = tpic

/-- The layouts whose Ethertype is seen: those of the second lane, and an untagged frame on the
first lane unless a stray tag makes two bytes of the source address stand for its Ethertype. -/
def Seen (fr : EthernetFrame) (second : Bool) (is : List In) : Prop :=
  second = true ∨
    (fr.tag = none ∧ (Stray is → (fr.mac.drop 16).take 2 = wordBytes fr.ethertype 2))

section

variable {fr : EthernetFrame} {second : Bool} {s : State} {is pre : List In} {i : In}

theorem Reaches.get (hr : Reaches is pre i k) : (is.filterMap beat)[k]? = some i ∧
    pre.filterMap beat = (is.filterMap beat).take k := by
  obtain ⟨⟨post, rfl⟩, hv, hk⟩ := hr
  have hb : beat i = some i := beat_eq_some.2 ⟨hv, rfl⟩
  rw [List.filterMap_append, List.filterMap_cons_some hb, ← hk]
  constructor
  · simp
  · simp

theorem exists_reaches (hk : k < (is.filterMap beat).length) : ∃ pre i, Reaches is pre i k := by
  have hsplit : is.filterMap beat =
      (is.filterMap beat).take k ++ (is.filterMap beat)[k] :: (is.filterMap beat).drop (k + 1) := by
    rw [List.getElem_cons_drop hk, List.take_append_drop]
  obtain ⟨pre, i, post, his, hpre, hi, _⟩ := exists_cycle hsplit
  refine ⟨pre, i, ⟨post, his⟩, (beat_eq_some.1 hi).1, ?_⟩
  rw [hpre, List.length_take]
  omega

theorem Carries.at (h : Carries second (is.filterMap beat) bs) (hs : Between s)
    (hpre : pre.filterMap beat = (is.filterMap beat).take k) (hk : k ≤ idBeat second)
    (hlen : k ≤ (is.filterMap beat).length) : At second (machine.run s pre) k := by
  have hal : count.Along (Opening second) 0 (pre.filterMap beat) := by
    rw [Mealy.along_iff]
    intro front b rest hsplit
    rw [hpre] at hsplit
    have hlt : front.length < k := by
      have := congrArg List.length hsplit
      rw [List.length_take, List.length_append, List.length_cons] at this
      omega
    have hb : (is.filterMap beat)[front.length]? = some b := by
      rw [← List.getElem?_take_of_lt hlt, hsplit]
      simp
    rw [count_run, Nat.zero_add]
    exact ⟨h.start _ b hb, h.uncancelled b (List.mem_of_getElem? hb), by omega⟩
  have hat : At second s 0 := hs
  have hrun := (follows second).run hat hal
  rwa [count_run, Nat.zero_add, hpre, List.length_take, Nat.min_eq_left hlen] at hrun

theorem Reaches.at (hr : Reaches is pre i k) (h : Carries second (is.filterMap beat) bs)
    (hs : Between s) (hk : k ≤ idBeat second) : At second (machine.run s pre) k := by
  obtain ⟨hget, hpre⟩ := hr.get
  have hlt := (List.getElem?_eq_some_iff.1 hget).1
  exact h.at hs hpre hk (Nat.le_of_lt hlt)

theorem Reaches.fields (hr : Reaches is pre i k) (h : Carries second (is.filterMap beat) bs)
    (hk : k ≠ 0) : i.startI = 0 ∧ i.cancelI = false := by
  have hget := hr.get.1
  have hs := h.start k i hget
  rw [if_neg hk] at hs
  exact ⟨hs, h.uncancelled i (List.mem_of_getElem? hget)⟩

theorem Reaches.before (hr : Reaches is pre i k) (hn : n < k) :
    ∃ front j mid, pre = front ++ j :: mid ∧ Reaches is front j n ∧
      mid.filterMap beat = ((is.filterMap beat).take k).drop (n + 1) := by
  obtain ⟨hget, hpre⟩ := hr.get
  have hlt := (List.getElem?_eq_some_iff.1 hget).1
  have hv : n < (pre.filterMap beat).length := by
    rw [hpre, List.length_take]
    omega
  have hsplit : pre.filterMap beat = (pre.filterMap beat).take n ++
      (pre.filterMap beat)[n] :: (pre.filterMap beat).drop (n + 1) := by
    rw [List.getElem_cons_drop hv, List.take_append_drop]
  obtain ⟨front, j, mid, rfl, hfront, hj, hmid⟩ := exists_cycle hsplit
  obtain ⟨post, his⟩ := hr.split
  refine ⟨front, j, mid, rfl, ⟨⟨mid ++ i :: post, ?_⟩, (beat_eq_some.1 hj).1, ?_⟩, ?_⟩
  · rw [his, List.append_assoc, List.cons_append]
  · rw [hfront, List.length_take]
    omega
  · rw [hmid, hpre]

theorem lsb_iff (h : Carries false (is.filterMap beat) bs) (hs : Between s)
    (hr : Reaches is (pre ++ [q]) i 2) : (machine.run s (pre ++ [q])).typeLsbVQ = true ↔
      q.validI = false ∧ liteTypeId q 1 = tpic := by
  obtain ⟨hget, hpre⟩ := hr.get
  have hlt := (List.getElem?_eq_some_iff.1 hget).1
  have hrun : machine.run s (pre ++ [q]) = next true (machine.run s pre) q := by
    rw [Mealy.run_append]
    rfl
  rw [hrun]
  cases hv : q.validI with
  | true =>
    have hq : beat q = some q := beat_eq_some.2 ⟨hv, rfl⟩
    have hone : pre.filterMap beat = (is.filterMap beat).take 1 := by
      have htake := congrArg (List.take 1) hpre
      have hcount := hr.count
      rw [List.filterMap_append, List.filterMap_cons_some hq, List.filterMap_nil] at htake hcount
      rw [List.length_append, List.length_singleton] at hcount
      rwa [List.take_take, List.take_append_of_le_length (by omega),
        List.take_of_length_le (by omega)] at htake
    have hat : InHead false (machine.run s pre) 1 := h.at hs hone (by decide) (by omega)
    simp [hat.lsb_first q]
  | false =>
    have hq : beat q = none := beat_eq_none.2 hv
    rw [List.filterMap_append, List.filterMap_cons_none hq, List.filterMap_nil,
      List.append_nil] at hpre
    have hat : InHead false (machine.run s pre) 2 :=
      h.at hs hpre (Nat.le_refl 2) (Nat.le_of_lt hlt)
    simp [hat.lsb_next q]

theorem typeBeat_second (fr : EthernetFrame) : typeBeat fr true = 3 := by
  rcases fr.tagBytes_length_cases with ⟨_, ho⟩ | ⟨_, ho⟩ <;> simp [typeBeat, leadLen, ho]

theorem typeBeat_first (fr : EthernetFrame) :
    typeBeat fr false = if fr.tag = none then 2 else 3 := by
  rcases fr.tagBytes_length_cases with ⟨ht, ho⟩ | ⟨ht, ho⟩ <;> simp [typeBeat, leadLen, ho, ht]

theorem Carries.id_second (h : Carries true (is.filterMap beat) fr.bytes)
    (hr : Reaches is pre i 3) : liteTypeId i 0 = fr.idWord :=
  h.word hr.get.1 (by decide) (n := 20) rfl fr.idWord_bytes.1 fr.idWord_bytes.2

theorem Carries.id_first (h : Carries false (is.filterMap beat) fr.bytes)
    (hr : Reaches is pre i 2) : liteTypeId i 1 = fr.idWord :=
  h.word hr.get.1 (by decide) (n := 20) rfl fr.idWord_bytes.1 fr.idWord_bytes.2

theorem Carries.type_second (h : Carries true (is.filterMap beat) fr.bytes)
    (hr : Reaches is pre i 3) (ht : fr.tag ≠ none) : liteTypeId i 1 = fr.ethertype := by
  have ho : fr.typeOffset = 24 := by
    rcases fr.tagBytes_length_cases with ⟨hn, _⟩ | ⟨_, ho⟩
    · exact absurd hn ht
    · exact ho
  have htype := fr.ethertype_bytes
  rw [ho] at htype
  exact h.word hr.get.1 (by decide) (n := 24) rfl htype.1 htype.2

theorem Carries.src_first (h : Carries false (is.filterMap beat) fr.bytes)
    (hr : Reaches is pre i 2) :
    liteTypeId i 0 = w ↔ (fr.mac.drop 16).take 2 = wordBytes w 2 := by
  have hmac := fr.mac_length
  have h16 : fr.bytes[16]? = some fr.mac[16] := by
    simp [EthernetFrame.bytes, List.getElem?_append_left, hmac]
  have h17 : fr.bytes[17]? = some fr.mac[17] := by
    simp [EthernetFrame.bytes, List.getElem?_append_left, hmac]
  have hlite : liteTypeId i 0 = lanes fr.mac[16] fr.mac[17] := by
    apply h.word hr.get.1 (by decide) (n := 16) rfl
    · rw [lane0_lanes, h16]
    · rw [lane1_lanes, h17]
  have htake : (fr.mac.drop 16).take 2 = [fr.mac[16], fr.mac[17]] := by
    rw [List.drop_eq_getElem_cons (by omega), List.drop_eq_getElem_cons (by omega)]
    rfl
  rw [hlite, htake]
  constructor
  · rintro rfl
    have hw : wordBytes (lanes fr.mac[16] fr.mac[17]) 2 =
        [lane0 (lanes fr.mac[16] fr.mac[17]), lane1 (lanes fr.mac[16] fr.mac[17])] := rfl
    rw [hw, lane0_lanes, lane1_lanes]
  · intro he
    obtain ⟨h0, h1⟩ : fr.mac[16] = lane0 w ∧ fr.mac[17] = lane1 w := by simpa [wordBytes] using he
    rw [h0, h1, lanes_lane]

theorem Seen.type (hseen : Seen fr second is) (h : Carries second (is.filterMap beat) fr.bytes)
    (hs : Between s) (hr : Reaches is pre i (idBeat second)) :
    typeV (machine.run s pre) i = true ∧ typeId (machine.run s pre) i = fr.ethertype := by
  have hat := hr.at h hs (Nat.le_refl _)
  cases second with
  | true =>
    obtain ⟨hv, hid⟩ := InHead.second_id (i := i) hat
    refine ⟨hv, ?_⟩
    rw [hid, h.id_second hr, EthernetFrame.idWord]
    by_cases ht : fr.tag = none
    · rw [if_pos ht, if_neg (fr.ethertype_ne ht)]
    · rw [if_neg ht, if_pos rfl, h.type_second hr ht]
  | false =>
    obtain ⟨ht, hstray⟩ := hseen.resolve_left Bool.false_ne_true
    obtain ⟨hv, hid⟩ := InHead.first_id (i := i) hat
    have hlite : liteTypeId i 1 = fr.ethertype := by
      rw [h.id_first hr, EthernetFrame.idWord, if_pos ht]
    have hne : (liteTypeId i 1 != tpic) = true := by
      rw [hlite, bne_iff_ne]
      exact fr.ethertype_ne ht
    refine ⟨by rw [hv, hne, Bool.true_or], ?_⟩
    rw [hid]
    split
    next hl =>
      obtain rfl | ⟨front, q, rfl⟩ := List.eq_nil_or_concat pre
      · cases hr.count
      · rw [List.concat_eq_append] at hr hl
        obtain ⟨hq, htp⟩ := (lsb_iff h hs hr).1 hl
        exact (h.src_first hr).2 (hstray ⟨front, q, i, hr, hq, htp⟩)
    next => exact hlite

theorem Seen.typeBeat_eq (hseen : Seen fr second is) : typeBeat fr second = idBeat second := by
  cases second with
  | true => exact typeBeat_second fr
  | false =>
    obtain ⟨ht, _⟩ := hseen.resolve_left Bool.false_ne_true
    rw [typeBeat_first, if_pos ht]
    rfl

theorem idBeat_pos (second : Bool) : idBeat second ≠ 0 := by cases second <;> decide

theorem Reaches.leave (hr : Reaches is pre i k) (h : Carries second (is.filterMap beat) bs)
    (hs : Between s) (hk : k ≠ 0) (hle : k ≤ idBeat second)
    (ht : typeV (machine.run s pre) i = true) :
    InData (machine.run s (pre ++ [i])) (typeId (machine.run s pre) i != ipv4) := by
  obtain ⟨hsi, hci⟩ := hr.fields h hk
  have hat := (hr.at h hs hle).inHead hk
  rw [Mealy.run_append]
  exact hat.leave hr.valid hsi hci ht

theorem Seen.inData (hseen : Seen fr second is) (h : Carries second (is.filterMap beat) fr.bytes)
    (hs : Between s) (hr : Reaches is pre i k) (hk : idBeat second < k) :
    InData (machine.run s pre) (fr.ethertype != ipv4) := by
  obtain ⟨front, j, mid, rfl, hrj, hmid⟩ := hr.before hk
  obtain ⟨htv, hid⟩ := hseen.type h hs hrj
  have hleave := hrj.leave h hs (idBeat_pos second) (Nat.le_refl _) htv
  have hlt := (List.getElem?_eq_some_iff.1 hr.get.1).1
  rw [hid] at hleave
  rw [List.append_cons, Mealy.run_append]
  apply hleave.run
  intro b hb
  rw [hmid] at hb
  obtain ⟨n, hn⟩ := List.mem_iff_getElem?.1 hb
  rw [List.getElem?_drop] at hn
  have hnk : idBeat second + 1 + n < k := by
    have := (List.getElem?_eq_some_iff.1 hn).1
    rw [List.length_take] at this
    omega
  rw [List.getElem?_take_of_lt hnk] at hn
  have hstart := h.start _ b hn
  rw [if_neg (by omega)] at hstart
  exact ⟨hstart, h.uncancelled b (List.mem_of_getElem? hn), h.not_term hn (by omega)⟩

theorem typeBeat_lt (h : Carries second (is.filterMap beat) fr.bytes) :
    typeBeat fr second < (is.filterMap beat).length := by
  apply h.lt_length
  have hlen := fr.length_bytes
  rw [typeBeat]
  omega

theorem At.stalls (h : At second s k) (hmid : mid.filterMap beat = []) :
    At second (machine.run s mid) k := by
  have hal : count.Along (Opening second) k (mid.filterMap beat) := by
    rw [hmid]
    exact True.intro
  have hrun := (follows second).run h hal
  rwa [hmid] at hrun

/-- On the first lane the type after a tag is never seen where it is. -/
theorem not_detected_tagged (h : Carries false (is.filterMap beat) fr.bytes) (hs : Between s)
    (ht : fr.tag ≠ none) : ¬ Detected fr false s is := by
  intro hd
  have htb : typeBeat fr false = 3 := by rw [typeBeat_first, if_neg ht]
  have hlen := typeBeat_lt h
  rw [htb] at hlen
  obtain ⟨pre, i, hr⟩ := exists_reaches hlen
  obtain ⟨front, j, mid, rfl, hrj, hmid⟩ := hr.before (n := 2) (by decide)
  have hat := (hrj.at h hs (Nat.le_refl 2)).inHead (by decide)
  obtain ⟨hsj, hcj⟩ := hrj.fields h (by decide)
  -- the header state is not left on the third beat, so the counter passes 16
  have hnot : ¬ typeV (machine.run s front) j = true := by
    intro htv
    have hleave := hrj.leave h hs (by decide) (Nat.le_refl 2) htv
    have h23 := (hd.left front j 2 hrj).1 ⟨hat.head, hleave.head⟩
    omega
  have hnext : At false (machine.run s (front ++ [j])) 3 := by
    rw [Mealy.run_append]
    exact hat.stay (by decide) hrj.valid hsj hcj (Bool.eq_false_iff.2 hnot)
  have hstalls : mid.filterMap beat = [] := by
    rw [hmid, List.drop_eq_nil_of_le]
    rw [List.length_take]
    omega
  have hpast := hnext.stalls hstalls
  rw [← Mealy.run_append, ← List.append_cons] at hpast
  obtain ⟨hsi, hci⟩ := hr.fields h (by decide)
  have hstay := (hpast.inHead (by decide)).stay (by decide) hr.valid hsi hci
    (hpast.inHead (by decide)).past
  have hleft := ((hd.left _ i 3 hr).2 htb.symm).2
  rw [Mealy.run_append] at hleft
  exact Bool.false_ne_true (hleft.symm.trans hstay.head)

theorem Reaches.at_next (hr : Reaches is pre i k) (h : Carries second (is.filterMap beat) bs)
    (hs : Between s) (hk : k < idBeat second) :
    InHead second (machine.run s (pre ++ [i])) (k + 1) := by
  obtain ⟨hget, hpre⟩ := hr.get
  have hlt := (List.getElem?_eq_some_iff.1 hget).1
  have hi : beat i = some i := beat_eq_some.2 ⟨hr.valid, rfl⟩
  refine h.at hs (k := k + 1) ?_ hk hlt
  rw [List.filterMap_append, hpre, List.filterMap_cons_some hi, List.filterMap_nil,
    List.take_add_one, hget]
  rfl

theorem Seen.detected (hseen : Seen fr second is) (h : Carries second (is.filterMap beat) fr.bytes)
    (hs : Between s) : Detected fr second s is where
  left pre i k hr := by
    rw [hseen.typeBeat_eq]
    rcases Nat.lt_trichotomy k (idBeat second) with hlt | rfl | hgt
    · have hnext := hr.at_next h hs hlt
      simp [hnext.head, Nat.ne_of_lt hlt]
    · have hat := (hr.at h hs (Nat.le_refl _)).inHead (idBeat_pos second)
      have hleave := hr.leave h hs (idBeat_pos second) (Nat.le_refl _) (hseen.type h hs hr).1
      simp [hat.head, hleave.head]
    · have hdata := hseen.inData h hs hr hgt
      simp [hdata.head, Nat.ne_of_gt hgt]
  typed pre i hr := by
    rw [hseen.typeBeat_eq] at hr
    exact (hseen.type h hs hr).2

theorem Detected.seen (hd : Detected fr second s is)
    (h : Carries second (is.filterMap beat) fr.bytes) (hs : Between s) : Seen fr second is := by
  cases second with
  | true => exact .inl rfl
  | false =>
    by_cases ht : fr.tag = none
    · refine .inr ⟨ht, ?_⟩
      rintro ⟨pre, q, i, hr, hq, htp⟩
      have htb : typeBeat fr false = 2 := by rw [typeBeat_first, if_pos ht]
      have hat := (hr.at h hs (Nat.le_refl 2)).inHead (by decide)
      have htyped := hd.typed _ i (htb ▸ hr)
      rw [(hat.first_id (i := i)).2, if_pos ((lsb_iff h hs hr).2 ⟨hq, htp⟩)] at htyped
      exact (h.src_first hr).1 htyped
    · exact absurd hd (not_detected_tagged h hs ht)

/-- The beat of the type is passed on whatever the type is: the filter acts a cycle later. -/
theorem Seen.validO_type (hseen : Seen fr second is)
    (h : Carries second (is.filterMap beat) fr.bytes) (hs : Between s)
    (hr : Reaches is pre i (idBeat second)) : validO (machine.run s pre) i = true := by
  have hat := (hr.at h hs (Nat.le_refl _)).inHead (idBeat_pos second)
  have htv := (hseen.type h hs hr).1
  simp [validO, dataLiteV, headDataLiteV, hr.valid, hat.head, hat.bypass, htv]

theorem Reaches.silent (hr : Reaches is pre i k) (h : Carries second (is.filterMap beat) bs)
    (hs : Between s) (hk : k < idBeat second) : validO (machine.run s pre) i = false := by
  have hat := hr.at h hs (Nat.le_of_lt hk)
  cases k with
  | zero =>
    have hb : Between (machine.run s pre) := hat
    simp [validO, hb.head, hb.data]
  | succ k =>
    have hin : InHead second (machine.run s pre) (k + 1) := hat
    have hidx := hin.vlanIdxV_false (Nat.succ_pos k) hk
    simp [validO, headDataLiteV, typeV, hidx, hin.data]

theorem Seen.passedAfter (hseen : Seen fr second is)
    (h : Carries second (is.filterMap beat) fr.bytes) (hs : Between s) :
    PassedAfter fr second s is := by
  intro pre i k hr hk
  rw [hseen.typeBeat_eq] at hk
  rw [(hseen.inData h hs hr hk).validO_eq hr.valid]
  simp

theorem Seen.passed_iff (hseen : Seen fr second is)
    (h : Carries second (is.filterMap beat) fr.bytes) (hs : Between s) :
    Passed fr second s is ↔ fr.ethertype = ipv4 := by
  have htb := hseen.typeBeat_eq
  constructor
  · intro hp
    have hlen := typeBeat_lt h
    rw [htb] at hlen
    obtain ⟨pre, i, hr⟩ := exists_reaches hlen
    exact ((hp pre i _ hr).1 (hseen.validO_type h hs hr)).2
  · intro hip pre i k hr
    rw [htb]
    rcases Nat.lt_trichotomy k (idBeat second) with hlt | rfl | hgt
    · rw [hr.silent h hs hlt]
      simp [Nat.not_le_of_lt hlt]
    · rw [hseen.validO_type h hs hr]
      simp [hip]
    · rw [(hseen.inData h hs hr hgt).validO_eq hr.valid]
      simp [hip, Nat.le_of_lt hgt]

/-- For every frame and all stalls: the type is found, and what follows its beat is passed on if it
is IPv4, exactly if the frame is of a layout that is seen; as the filter lets the beat of the type
through, nothing is passed on that should not be exactly if the type is IPv4 as well. -/
theorem detected_iff (hs : Between s) (h : Carries second (is.filterMap beat) fr.bytes) :
    (Detected fr second s is ∧ PassedAfter fr second s is ↔ Seen fr second is) ∧
      (Detected fr second s is ∧ Passed fr second s is ↔
        Seen fr second is ∧ fr.ethertype = ipv4) := by
  constructor
  · constructor
    · rintro ⟨hd, -⟩
      exact hd.seen h hs
    · intro hseen
      exact ⟨hseen.detected h hs, hseen.passedAfter h hs⟩
  · constructor
    · rintro ⟨hd, hp⟩
      have hseen := hd.seen h hs
      exact ⟨hseen, (hseen.passed_iff h hs).1 hp⟩
    · rintro ⟨hseen, hip⟩
      exact ⟨hseen.detected h hs, (hseen.passed_iff h hs).2 hip⟩

end

theorem between_reset (s : State) (i : In) : Between (reset s i) := ⟨rfl, rfl, rfl⟩

def sampleFrame : EthernetFrame where
  mac := List.replicate 20 0
  tag := some 0
  ethertype := ipv4
  payload := [1, 2]
  mac_length := length_zeros
  ethertype_ne := nofun
  payload_ne := nofun

def sampleCycles (start : BitVec 2) (len : BitVec 4) (ws : List (BitVec 64)) : List In :=
  ws.mapIdx fun k w => ⟨false, true, w, if k = 0 then start else 0, decide (k = 3), len⟩

def sampleSecond : List In := sampleCycles 2 8 [0, 0, 0, 0x0201000800000081]

def sampleFirst : List In := sampleCycles 1 4 [0, 0, 0x0000008100000000, 0x02010008]

theorem carries_sampleSecond : Carries true (sampleSecond.filterMap beat) sampleFrame.bytes where
  start := forall_getElem? (by decide)
  term := forall_getElem? (by decide)
  uncancelled := by decide
  len := by decide
  bytes := ⟨List.replicate 4 0, rfl, by decide⟩

theorem carries_sampleFirst : Carries false (sampleFirst.filterMap beat) sampleFrame.bytes where
  start := forall_getElem? (by decide)
  term := forall_getElem? (by decide)
  uncancelled := by decide
  len := by decide
  bytes := ⟨[], rfl, by decide⟩

theorem detected_sample : Detected sampleFrame true (reset default default) sampleSecond ∧
    Passed sampleFrame true (reset default default) sampleSecond :=
  (detected_iff (between_reset default default) carries_sampleSecond).2.2 ⟨.inl rfl, rfl⟩

/-- The same frame on the first lane: the header state goes on after its type. -/
theorem not_detected : Carries false (sampleFirst.filterMap beat) sampleFrame.bytes ∧
    ¬ Detected sampleFrame false (reset default default) sampleFirst := by
  refine ⟨carries_sampleFirst, fun hd => ?_⟩
  have hr : Reaches sampleFirst (sampleFirst.take 3) ⟨false, true, 0x02010008, 0, true, 4⟩ 3 :=
    ⟨⟨[], by decide⟩, rfl, by decide⟩
  have hleft := ((hd.left _ _ 3 hr).2 (by decide)).2
  revert hleft
  decide

end LowLatencyEthernet.MacRx64
