import LowLatencyEthernet.Rtl.MacRx32
import LowLatencyEthernet.Beat.WideFrames
import LowLatencyEthernet.Beat.Wire

namespace LowLatencyEthernet.MacRx32
set_option autoImplicit true

open Sync
open MacRx (typeIdx ipv4 tpic)

/-- What the wide MAC takes in a valid cycle. -/
structure Beat where
  cancel : Bool
  start : Bool
  data : BitVec 32
  term : Bool
  len : BitVec 3
deriving DecidableEq, Repr

def Beat.word (b : Beat) : Word := b.data.extractLsb' 0 16

def Beat.bytes (b : Beat) : List Byte := laneBytes b.data (if b.term then b.len.toNat else 4)

/-- What the wide MAC hands to the IPv4 layer in a valid cycle. -/
structure Shown where
  start : Bool
  data : BitVec 32
  len : BitVec 3
deriving DecidableEq, Repr

def Shown.bytes (b : Shown) : List Byte := (laneBytes b.data 4).take b.len.toNat

def beat (i : In) : Option Beat :=
  if i.validI then some ⟨i.cancelI, i.startI, i.dataI, i.termI, i.lenI⟩ else none

def port (o : Out) : Option Shown :=
  if o.validO then some ⟨o.startO, o.dataO, o.lenO⟩ else none

def mark (o : Out) : Option Unit := (port o).map fun _ => ()

/-- `head k` has seen `k` beats, `type` waits for the type that follows a tag. -/
inductive Phase where
  | invalid
  | head (k : Nat)
  | type
  | data (bypass : Bool)
deriving DecidableEq, Repr

namespace Phase

def next : Phase → Beat → Phase
  | .invalid, b => if b.start && !b.cancel then .head 1 else .invalid
  | .head k, b =>
    if b.cancel then .invalid
    else if k = 5 then if b.word == tpic then .type else .data (b.word != ipv4)
    else .head (k + 1)
  | .type, b => if b.cancel then .invalid else .data (b.word != ipv4)
  | .data bypass, b => if b.cancel || b.term then .invalid else .data bypass

/-- The beat of the type is shown, whatever the type is. -/
def shows : Phase → Beat → Bool
  | .invalid, _ => false
  | .head k, b => decide (k = 5) && b.word != tpic
  | .type, _ => true
  | .data bypass, _ => !bypass

end Phase

def transducer : Transducer Phase Beat Unit :=
  ⟨Phase.next, fun ph b => if ph.shows b then some () else none⟩

def StartOk (ph : Phase) (b : Beat) : Prop := b.start = true → ph = .invalid

def Sim (s : State) : Phase → Prop
  | .invalid => s.fsmInvalidQ = true ∧ s.fsmHeadQ = false ∧ s.fsmDataQ = false
  | .head k =>
    s.fsmInvalidQ = false ∧ s.fsmHeadQ = true ∧ s.fsmDataQ = false ∧ 1 ≤ k ∧ k ≤ 5 ∧
      s.cntQ = BitVec.ofNat 5 (4 * k) ∧ s.typeLsbVQ = false ∧ s.bypassVQ = false
  | .type =>
    s.fsmInvalidQ = false ∧ s.fsmHeadQ = true ∧ s.fsmDataQ = false ∧
      s.cntQ = 24 ∧ s.typeLsbVQ = true ∧ s.bypassVQ = false
  | .data bypass =>
    s.fsmInvalidQ = false ∧ s.fsmHeadQ = false ∧ s.fsmDataQ = true ∧ s.bypassVQ = bypass

theorem beat_eq_none : beat i = none ↔ i.validI = false := by
  cases h : i.validI <;> simp [beat, h]

theorem beat_eq_some : beat i = some b ↔
    i.validI = true ∧ i.cancelI = b.cancel ∧ i.startI = b.start ∧ i.dataI = b.data ∧
      i.termI = b.term ∧ i.lenI = b.len := by
  cases b
  cases h : i.validI <;> simp [beat, h]

theorem Sim.stall (h : Sim s ph) (hb : beat i = none) : Sim (next true s i) ph := by
  rw [beat_eq_none] at hb
  cases ph <;> simp_all [Sim, next, cntEn, bypassVNext, typeErrV]

theorem stall_out (hb : beat i = none) : mark (out s i) = none := by
  rw [beat_eq_none] at hb
  simp [mark, port, out, validO, dataLiteV, hb]

theorem vlanIdxV_head (hc : s.cntQ = BitVec.ofNat 5 (4 * k)) (hk : k ≤ 5) :
    vlanIdxV s = decide (k = 5) := by
  have h : k = 0 ∨ k = 1 ∨ k = 2 ∨ k = 3 ∨ k = 4 ∨ k = 5 := by omega
  rcases h with rfl | rfl | rfl | rfl | rfl | rfl <;> simp [vlanIdxV, hc, typeIdx]

theorem tpicV_eq {b : Beat} (hd : i.dataI = b.data) : tpicV i = (b.word == tpic) := by
  rw [tpicV, vlanId, hd, Beat.word]

theorem typeId_eq {b : Beat} (hd : i.dataI = b.data) : typeId i = b.word := by
  rw [typeId, hd, Beat.word]

theorem Sim.typeV_head (h : Sim s (.head k)) (hd : i.dataI = b.data) :
    typeV s i = (Phase.head k).shows b := by
  obtain ⟨_, _, _, _, hk, hc, hl, _⟩ := h
  have hidx := vlanIdxV_head hc hk
  rw [typeV, vlanV, hidx, tpicV_eq hd, hl, Phase.shows]
  cases decide (k = 5) <;> cases h : b.word == tpic <;> simp [bne, h]

theorem Sim.typeV_type (h : Sim s .type) : typeV s i = true := by
  obtain ⟨_, _, _, hc, hl, _⟩ := h
  simp [typeV, hl]

theorem Sim.out_eq (h : Sim s ph) (hb : beat i = some b) :
    mark (out s i) = if ph.shows b then some () else none := by
  obtain ⟨hv, _, _, hd, _, _⟩ := beat_eq_some.1 hb
  have hshows : validO s i = ph.shows b := by
    cases ph with
    | invalid => simp [validO, Phase.shows, h.2.1, h.2.2]
    | head k =>
      have htv := h.typeV_head hd
      obtain ⟨_, hh, hdt, _, _, _, _, hbp⟩ := h
      simp [validO, dataLiteV, headDataLiteV, hv, hh, hdt, hbp, htv]
    | type =>
      have htv := h.typeV_type (i := i)
      obtain ⟨_, hh, hdt, _, _, hbp⟩ := h
      simp [validO, dataLiteV, headDataLiteV, Phase.shows, hv, hh, hdt, hbp, htv]
    | data bypass =>
      obtain ⟨_, hh, hdt, hbp⟩ := h
      simp [validO, dataLiteV, Phase.shows, hv, hh, hdt, hbp]
  have hout : (out s i).validO = ph.shows b := hshows
  cases hs : ph.shows b <;> simp [mark, port, hout, hs]

theorem Sim.step_head (h : Sim s (.head k)) (hb : beat i = some b) (hok : StartOk (.head k) b) :
    Sim (MacRx32.next true s i) (Phase.next (.head k) b) := by
  obtain ⟨hv, hca, hst, hd, ht, _⟩ := beat_eq_some.1 hb
  have htv := h.typeV_head hd
  obtain ⟨hi, hh, hdt, h1, hk, hc, hl, hbp⟩ := h
  have hns : b.start = false := Bool.eq_false_iff.2 fun hs => nomatch hok hs
  have hidx := vlanIdxV_head hc hk
  have htype := typeId_eq hd
  have htp := tpicV_eq hd
  cases hcb : b.cancel with
  | true =>
    simp [Phase.next, Sim, MacRx32.next, fsmInvalidNext, fsmHeadNext, fsmDataNext, hv, hca, hcb]
  | false =>
    by_cases he : k = 5
    · subst he
      have hcnt : s.cntQ = 20#5 := hc
      cases htag : b.word == tpic <;>
        simp [Phase.next, Phase.shows, Sim, MacRx32.next, fsmInvalidNext, fsmHeadNext, fsmDataNext,
          vlanV, typeLsbVNext, cntEn, cntNext, cntAdd, cntRst, bypassVNext, typeErrV, htv, hidx,
          htp, htag, htype, hcnt, hv, hca, hcb, hst, hns, hi, hh, hdt, hbp, bne]
    · have hadd : BitVec.ofNat 5 (4 * k) + 4#5 = BitVec.ofNat 5 (4 * (k + 1)) :=
        (BitVec.ofNat_add (4 * k) 4).symm
      have hk' : k + 1 ≤ 5 := by omega
      simp [Phase.next, Phase.shows, Sim, MacRx32.next, fsmInvalidNext, fsmHeadNext, fsmDataNext,
        vlanV, typeLsbVNext, cntEn, cntNext, cntAdd, cntRst, bypassVNext, typeErrV, htv, hidx, hc,
        hadd, hv, hca, hcb, hst, hns, hi, hh, hdt, hbp, he, hk']

theorem Sim.step (h : Sim s ph) (hb : beat i = some b) (hok : StartOk ph b) :
    Sim (MacRx32.next true s i) (ph.next b) := by
  obtain ⟨hv, hca, hst, hd, ht, _⟩ := beat_eq_some.1 hb
  have htype := typeId_eq hd
  cases ph with
  | head k => exact h.step_head hb hok
  | invalid =>
    obtain ⟨hi, hh, hdt⟩ := h
    cases hs : b.start <;> cases hcb : b.cancel <;>
      simp [Phase.next, Sim, MacRx32.next, fsmInvalidNext, fsmHeadNext, fsmDataNext,
        typeLsbVNext, cntEn, cntNext, cntAdd, cntRst, bypassVNext, hv, hca, hst, hs, hcb, hi, hh,
        hdt]
  | type =>
    have htv := h.typeV_type (i := i)
    obtain ⟨hi, hh, hdt, _, _, hbp⟩ := h
    have hns : b.start = false := Bool.eq_false_iff.2 fun hs => nomatch hok hs
    cases hcb : b.cancel <;>
      simp [Phase.next, Sim, MacRx32.next, fsmInvalidNext, fsmHeadNext, fsmDataNext, bypassVNext,
        typeErrV, htv, htype, hv, hca, hst, hns, hcb, hi, hh, hdt, hbp]
  | data bypass =>
    obtain ⟨hi, hh, hdt, hbp⟩ := h
    have hns : b.start = false := Bool.eq_false_iff.2 fun hs => nomatch hok hs
    cases hcb : b.cancel <;> cases htb : b.term <;>
      simp [Phase.next, Sim, MacRx32.next, fsmInvalidNext, fsmHeadNext, fsmDataNext, bypassVNext,
        typeErrV, hv, hca, hst, hns, ht, hcb, htb, hi, hh, hdt, hbp]

theorem follows : Follows machine transducer beat mark StartOk Sim where
  stall h hb := h.stall hb
  stall_out _ hb := stall_out hb
  step h hb hok := h.step hb hok
  step_out h hb _ := h.out_eq hb

theorem sim_reset (s : State) (i : In) : Sim (reset s i) .invalid := ⟨rfl, rfl, rfl⟩

/-- A frame carries the bytes `bs`: a start on its first beat only and a term on its last one only,
which holds one to four bytes. -/
structure Carries (f : List Beat) (bs : List Byte) : Prop where
  start : ∀ k b, f[k]? = some b → (b.start = true ↔ k = 0)
  term : ∀ k b, f[k]? = some b → (b.term = true ↔ k + 1 = f.length)
  uncancelled : ∀ b ∈ f, b.cancel = false
  len : ∀ b ∈ f, b.term = true → 1 ≤ b.len.toNat ∧ b.len.toNat ≤ 4
  bytes : f.flatMap Beat.bytes = bs

theorem Carries.not_term (h : Carries f bs) (hb : f[k]? = some b) (hk : k + 1 < f.length) :
    b.term = false :=
  Bool.eq_false_iff.2 fun ht => Nat.ne_of_lt hk ((h.term k b hb).1 ht)

theorem Carries.chunked (h : Carries f bs) : Chunked 4 (f.map Beat.bytes) := by
  apply chunked_of_last h.term
  · intro b _ ht
    rw [Beat.bytes, ht, length_laneBytes]
    rfl
  · intro b hb ht
    rw [Beat.bytes, ht, length_laneBytes]
    exact (h.len b hb ht).2

theorem Carries.byte (h : Carries f bs) (hb : f[k]? = some b) (hj : j < 4)
    (ha : bs[4 * k + j]? = some a) : b.data.extractLsb' (8 * j) 8 = a := by
  have hc : (f.map Beat.bytes)[k]? = some b.bytes := by rw [List.getElem?_map, hb, Option.map_some]
  have hget := h.chunked.getElem?_flatten hc hj
  rw [← List.flatMap_def, h.bytes, ha] at hget
  exact lane_eq hget.symm

theorem Carries.word (h : Carries f bs) (hb : f[k]? = some b)
    (h0 : bs[4 * k]? = some (lane0 w)) (h1 : bs[4 * k + 1]? = some (lane1 w)) : b.word = w := by
  rw [Beat.word, extractLsb'_lanes, ← lanes_lane w]
  exact congrArg₂ lanes (h.byte hb (j := 0) (by decide) h0) (h.byte hb (j := 1) (by decide) h1)

theorem Carries.length_le (h : Carries f bs) : bs.length ≤ 4 * f.length := by
  have hle := h.chunked.length_flatten_le
  rwa [← List.flatMap_def, h.bytes, List.length_map] at hle

/-- The beat with the type. -/
def typeBeat (fr : EthernetFrame) : Nat := if fr.tag = none then 5 else 6

theorem typeBeat_cases (fr : EthernetFrame) : typeBeat fr = 5 ∨ typeBeat fr = 6 := by
  unfold typeBeat
  split
  · exact .inl rfl
  · exact .inr rfl

theorem four_typeBeat (fr : EthernetFrame) : 4 * typeBeat fr = fr.typeOffset := by
  rcases fr.tagBytes_length_cases with ⟨ht, ho⟩ | ⟨ht, ho⟩ <;> simp [typeBeat, ht, ho]

def phaseAt (fr : EthernetFrame) (k : Nat) : Phase :=
  if k = 0 then .invalid
  else if k ≤ 5 then .head k
  else if k ≤ typeBeat fr then .type
  else .data false

section

variable {fr : EthernetFrame} {f : List Beat}

theorem Carries.idWord (h : Carries f fr.bytes) (hb : f[5]? = some b) : b.word = fr.idWord :=
  h.word hb fr.idWord_bytes.1 fr.idWord_bytes.2

theorem Carries.sixth_word (h : Carries f fr.bytes) (hip : fr.ethertype = ipv4)
    (hb : f[5]? = some b) :
    (fr.tag = none ∧ b.word = ipv4) ∨ (fr.tag ≠ none ∧ b.word = tpic) := by
  rw [h.idWord hb, EthernetFrame.idWord]
  by_cases htag : fr.tag = none
  · exact .inl ⟨htag, by rw [if_pos htag, hip]⟩
  · exact .inr ⟨htag, if_neg htag⟩

theorem Carries.typeWord (h : Carries f fr.bytes) (hb : f[typeBeat fr]? = some b) :
    b.word = fr.ethertype := by
  apply h.word hb
  · rw [four_typeBeat]
    exact fr.ethertype_bytes.1
  · rw [four_typeBeat]
    exact fr.ethertype_bytes.2

theorem Carries.next_phaseAt (h : Carries f fr.bytes) (hip : fr.ethertype = ipv4)
    (hb : f[k]? = some b) (hk : k + 1 < f.length) :
    (phaseAt fr k).next b = phaseAt fr (k + 1) := by
  have hc := h.uncancelled b (List.mem_of_getElem? hb)
  have ht := h.not_term hb hk
  by_cases h0 : k = 0
  · subst h0
    have hs := (h.start 0 b hb).2 rfl
    simp [phaseAt, Phase.next, hs, hc]
  by_cases h5 : k < 5
  · have hle : k ≤ 5 := by omega
    have hle' : k + 1 ≤ 5 := by omega
    have hne : k ≠ 5 := by omega
    simp [phaseAt, Phase.next, h0, hle, hle', hne, hc]
  by_cases he : k = 5
  · subst he
    rcases h.sixth_word hip hb with ⟨htag, hw⟩ | ⟨htag, hw⟩
    · simp [phaseAt, Phase.next, typeBeat, htag, hw, hc]
      decide
    · simp [phaseAt, Phase.next, typeBeat, htag, hw, hc]
  · have h5' : ¬ k ≤ 5 := by omega
    have h5s : ¬ k + 1 ≤ 5 := by omega
    by_cases hty : k ≤ typeBeat fr
    · have hk6 : k = typeBeat fr ∧ ¬ k + 1 ≤ typeBeat fr := by
        rcases typeBeat_cases fr with h | h <;> omega
      have hw := h.typeWord (hk6.1 ▸ hb)
      simp [phaseAt, Phase.next, h0, h5', h5s, hty, hk6.2, hw, hip, hc]
    · have hty' : ¬ k + 1 ≤ typeBeat fr := by omega
      simp [phaseAt, Phase.next, h0, h5', h5s, hty, hty', hc, ht]

theorem Carries.shows_phaseAt (h : Carries f fr.bytes) (hip : fr.ethertype = ipv4)
    (hb : f[k]? = some b) : (phaseAt fr k).shows b = decide (typeBeat fr ≤ k) := by
  have hcases := typeBeat_cases fr
  by_cases h0 : k = 0
  · have hle : ¬ typeBeat fr ≤ k := by omega
    rw [decide_eq_false hle, h0]
    rfl
  by_cases he : k = 5
  · subst he
    rcases h.sixth_word hip hb with ⟨htag, hw⟩ | ⟨htag, hw⟩
    · simp [phaseAt, Phase.shows, typeBeat, htag, hw]
      decide
    · simp [phaseAt, Phase.shows, typeBeat, htag, hw]
  by_cases h5 : k ≤ 5
  · have hle : ¬ typeBeat fr ≤ k := by omega
    simp [phaseAt, Phase.shows, h0, h5, he, hle]
  · have hle : typeBeat fr ≤ k := by omega
    by_cases hty : k ≤ typeBeat fr <;> simp [phaseAt, Phase.shows, h0, h5, hty, hle]

theorem Carries.run_take (h : Carries f fr.bytes) (hip : fr.ethertype = ipv4) (hk : k < f.length) :
    transducer.run .invalid (f.take k) = phaseAt fr k := by
  induction k with
  | zero => rfl
  | succ k ih =>
    have hlt : k < f.length := Nat.lt_of_succ_lt hk
    have hb : f[k]? = some f[k] := List.getElem?_eq_getElem hlt
    rw [Mealy.run_take_succ _ hb, ih hlt]
    exact h.next_phaseAt hip hb hk

theorem Carries.along (h : Carries f fr.bytes) :
    transducer.Along StartOk .invalid f := by
  rw [Mealy.along_iff]
  rintro pre b post rfl hs
  have hb : (pre ++ b :: post)[pre.length]? = some b := by simp
  have h0 := (h.start _ b hb).1 hs
  rw [List.eq_nil_of_length_eq_zero h0]
  rfl

theorem Carries.emit_eq (h : Carries f fr.bytes) (hip : fr.ethertype = ipv4) :
    transducer.emit .invalid f = (f.drop (typeBeat fr)).mapIdx fun _ _ => () := by
  have htrace := Mealy.trace_schedule (fun k => transducer.run .invalid (f.take k))
    fun k b hb => (Mealy.run_take_succ _ hb).symm
  rw [← MacRx.filterMap_mapIdx_drop (fun _ _ => ()), Transducer.emit]
  apply congrArg (List.filterMap id)
  refine htrace.trans ?_
  rw [List.mapIdx_eq_mapIdx_iff]
  intro k hk
  have hb : f[k]? = some f[k] := List.getElem?_eq_getElem hk
  have hshows := h.shows_phaseAt hip hb
  have hout : transducer.out (phaseAt fr k) f[k] =
      if (phaseAt fr k).shows f[k] then some () else none := rfl
  rw [h.run_take hip hk, hout, hshows]
  simp only [decide_eq_true_eq]

end

/-- The bits of `{~head_data_len & ~term_i}` reach the third bit of `len_o`, whatever `term_i`. -/
theorem four_le_lenO (s : State) (i : In) : 4 ≤ (lenO s i).toNat := by
  have hmask : ((lenMask i).setWidth 32 &&& 4).setWidth 3 = 4#3 := by
    unfold lenMask headDataLen
    cases i.termI <;> decide
  have hor : ∀ x : BitVec 3, 4 ≤ (x ||| 4#3).toNat := by decide
  rw [lenO, hmask]
  exact hor _

theorem length_bytes_shown (hb : b ∈ delivered machine port s is) : b.bytes.length = 4 := by
  obtain ⟨o, ho, hp⟩ := List.mem_filterMap.1 hb
  obtain ⟨k, hk⟩ := List.mem_iff_getElem?.1 ho
  rw [Mealy.getElem?_trace, Option.map_eq_some_iff] at hk
  obtain ⟨i, _, rfl⟩ := hk
  have hb : b = ⟨startO (machine.run s (is.take k)) i, dataO (machine.run s (is.take k)) i,
      lenO (machine.run s (is.take k)) i⟩ := by
    unfold port at hp
    split at hp
    · exact (Option.some.inj hp).symm
    · cases hp
  have hlen := four_le_lenO (machine.run s (is.take k)) i
  rw [hb, Shown.bytes, List.length_take, length_laneBytes]
  exact Nat.min_eq_right hlen

theorem length_flatMap_const {g : α → List β} {l : List α} (h : ∀ a ∈ l, (g a).length = n) :
    (l.flatMap g).length = n * l.length := by
  induction l with
  | nil => rfl
  | cons a l ih =>
    rw [List.flatMap_cons, List.length_append, h a List.mem_cons_self,
      ih fun b hb => h b (List.mem_cons_of_mem a hb), List.length_cons, Nat.mul_succ, Nat.add_comm]

theorem map_delivered (s : State) (is : List In) :
    (delivered machine port s is).map (fun _ => ()) = delivered machine mark s is := by
  rw [delivered, List.map_filterMap]
  rfl

theorem length_shown {fr : EthernetFrame} (hs : Sim s .invalid) (hip : fr.ethertype = ipv4)
    (h : Carries (is.filterMap beat) fr.bytes) :
    ((delivered machine port s is).flatMap Shown.bytes).length =
      4 * ((is.filterMap beat).length - typeBeat fr) := by
  have hmarks := follows.delivered_eq hs h.along
  rw [h.emit_eq hip, ← map_delivered] at hmarks
  have hlen := congrArg List.length hmarks
  rw [List.length_map, List.length_mapIdx, List.length_drop] at hlen
  rw [length_flatMap_const fun b hb => length_bytes_shown hb, hlen]

theorem narrow_layout {fr : EthernetFrame} {f : List MacRx.Beat} (hip : fr.ethertype = ipv4)
    (hx : f.map MacRx.Beat.data = pack x fr.bytes) :
    2 * MacRx.headLen ⟨true⟩ f = fr.typeOffset + 2 ∧ MacRx.isIpv4 ⟨true⟩ f = true := by
  have hmac := fr.mac_length
  have h10 : (pack x fr.mac).length = 10 := by rw [length_pack, hmac]
  have heven : fr.mac.length % 2 = 0 := by rw [hmac]
  rw [EthernetFrame.bytes, List.append_assoc, List.append_assoc, pack_append _ _ _ heven,
    EthernetFrame.tagBytes, hip] at hx
  unfold EthernetFrame.typeOffset EthernetFrame.tagBytes
  cases htag : fr.tag with
  | none =>
    rw [htag] at hx
    have hws : f.map MacRx.Beat.data = pack x fr.mac ++ ipv4 :: pack x fr.payload := by
      simpa [wordBytes_full, pack, lanes_lane] using hx
    obtain ⟨hl, hi, _⟩ := MacRx.layout_untagged (p := ⟨true⟩) h10 hws
    exact ⟨by rw [hl]; rfl, hi⟩
  | some tci =>
    rw [htag] at hx
    have hws : f.map MacRx.Beat.data =
        pack x fr.mac ++ tpic :: tci :: ipv4 :: pack x fr.payload := by
      simpa [wordBytes_full, pack, lanes_lane] using hx
    obtain ⟨hl, hi, _⟩ := MacRx.layout_tagged (p := ⟨true⟩) rfl h10 hws
    exact ⟨by rw [hl]; rfl, hi⟩

theorem narrow_shows {fr : EthernetFrame} {t : MacRx.State} {is : List MacRx.In}
    (ht : MacRx.Sim ⟨true⟩ t .invalid) (hip : fr.ethertype = ipv4)
    (h : MacRx.Carries (is.filterMap MacRx.beat) fr.bytes) :
    (delivered (MacRx.machine ⟨true⟩) MacRx.port t is).flatMap
      (fun b => wordBytes b.data b.len) = fr.payload := by
  have hmac := fr.mac_length
  obtain ⟨x, hx⟩ := h.data
  obtain ⟨hl, hi⟩ := narrow_layout hip hx
  have hlen := fr.length_bytes
  have hpos := List.length_pos_of_ne_nil fr.payload_ne
  have hlong : 2 * MacRx.headLen ⟨true⟩ (is.filterMap MacRx.beat) < fr.bytes.length := by omega
  have hf := (h.wellFormed hlong).frame
  rw [(MacRx.follows ⟨true⟩).delivered_eq ht hf.along, Transducer.emit, hf.trace_eq]
  have hshown := h.bytes_handed hlong hi
  rw [hl] at hshown
  refine hshown.trans ?_
  rw [EthernetFrame.bytes, EthernetFrame.typeOffset]
  apply List.drop_left'
  have htype : (wordBytes fr.ethertype 2).length = 2 := rfl
  rw [List.length_append, List.length_append, hmac, htype]

/-- What the wide receiver shows of a frame against what the narrow one does: the same bytes, and
one start, on the first beat. -/
structure Agree (wide : List Shown) (narrow : List Ipv4Rx.Beat) : Prop where
  bytes : wide.flatMap Shown.bytes = narrow.flatMap fun b => wordBytes b.data b.len
  start : ∀ k b, wide[k]? = some b → (b.start = true ↔ k = 0)
  shown : wide ≠ []

/-- Every beat from that of the type on shows all its lanes, so no frame agrees. -/
theorem never_agree (fr : EthernetFrame) (hip : fr.ethertype = ipv4) {s : State}
    {t : MacRx.State} {is : List In} {js : List MacRx.In} (hs : Sim s .invalid)
    (ht : MacRx.Sim ⟨true⟩ t .invalid) (hw : Carries (is.filterMap beat) fr.bytes)
    (hn : MacRx.Carries (js.filterMap MacRx.beat) fr.bytes) :
    ¬ Agree (delivered machine port s is)
      (delivered (MacRx.machine ⟨true⟩) MacRx.port t js) := by
  intro hagree
  have hbytes := congrArg List.length hagree.bytes
  rw [narrow_shows ht hip hn, length_shown hs hip hw] at hbytes
  have hle := hw.length_le
  have hlen := fr.length_bytes
  have htype := four_typeBeat fr
  omega

def sampleFrame : EthernetFrame where
  mac := List.replicate 20 0
  tag := none
  ethertype := ipv4
  payload := [0, 1, 2, 3, 4, 5]
  mac_length := length_zeros
  ethertype_ne := fun _ => by decide
  payload_ne := nofun

def sampleWide : List In :=
  [0, 0, 0, 0, 0, 0x01000008, 0x05040302].mapIdx fun k w =>
    ⟨false, true, w, decide (k = 0), decide (k = 6), 4, 0⟩

def sampleNarrow : List MacRx.In :=
  (MacRx.framed (pack 0 sampleFrame.bytes) 2).map fun b =>
    ⟨b.cancel, true, b.data, b.start, b.term, b.len⟩

theorem carries_sampleWide : Carries (sampleWide.filterMap beat) sampleFrame.bytes where
  start := forall_getElem? (by decide)
  term := forall_getElem? (by decide)
  uncancelled := by decide
  len := by decide
  bytes := by decide

theorem carries_sampleNarrow :
    MacRx.Carries (sampleNarrow.filterMap MacRx.beat) sampleFrame.bytes :=
  MacRx.carries_framed 0 sampleFrame.bytes

theorem never_agree_sample : ¬ Agree (delivered machine port (reset default default) sampleWide)
    (delivered (MacRx.machine ⟨true⟩) MacRx.port (MacRx.reset ⟨true⟩ default default)
      sampleNarrow) :=
  never_agree sampleFrame rfl (sim_reset default default) (MacRx.sim_reset _ default default)
    carries_sampleWide carries_sampleNarrow

/-- The wide receiver shows eight bytes for the six. -/
theorem not_agree : Carries (sampleWide.filterMap beat) sampleFrame.bytes ∧
    MacRx.Carries (sampleNarrow.filterMap MacRx.beat) sampleFrame.bytes ∧
      ¬ Agree (delivered machine port (reset default default) sampleWide)
        (delivered (MacRx.machine ⟨true⟩) MacRx.port (MacRx.reset ⟨true⟩ default default)
          sampleNarrow) := by
  refine ⟨carries_sampleWide, carries_sampleNarrow, fun h => ?_⟩
  have hlen := congrArg List.length h.bytes
  revert hlen
  decide +kernel

end LowLatencyEthernet.MacRx32
