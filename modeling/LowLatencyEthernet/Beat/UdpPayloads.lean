import LowLatencyEthernet.Sync.Presented
import LowLatencyEthernet.Beat.Delivery

namespace LowLatencyEthernet.UdpRx
set_option autoImplicit true

open Sync

/-- The IPv4 layer neither cancels a payload nor hands on half a beat. -/
def Contract (i : In) : Prop := i.validI = true → i.cancelI = false ∧ i.lenI = 2

/-- The counter and the filter are clear when a payload begins. -/
structure Clear (s : State) : Prop where
  cnt : s.cntQ = 0
  bypass : s.bypassVQ = false

theorem clear_of_idle (h : Sim s .idle) (hs : i.startI = false) : Clear (next p true s i) := by
  obtain ⟨hi, hh, hd⟩ := h
  have hidle : (next p true s i).fsmIdleQ = true := by simp [next, fsmIdleNext, hi, hs]
  obtain ⟨hc, hb⟩ := settle hs hi hidle
  exact ⟨hc, hb⟩

/-- A receiver along one payload, wherever its counter was when that began. -/
inductive Reader where
  | head (cnt : BitVec 16) (drop : Bool)
  | data (drop first : Bool)
  | idle

namespace Reader

def next : Reader → Beat → Reader
  | .head cnt drop, _ =>
    if (cnt + 2).extractLsb' 0 4 = 8#4 then .data drop true else .head (cnt + 2) drop
  | .data drop _, u => if u.term then .idle else .data drop false
  | .idle, _ => .idle

def out : Reader → Beat → Option AppBeat
  | .data false first, u => some ⟨first, u.term, u.termLen, u.data⟩
  | _, _ => none

end Reader

def reader : Transducer Reader Beat AppBeat := ⟨Reader.next, Reader.out⟩

/-- The circuit is where the reader is. -/
def Reads (s : State) : Reader → Prop
  | .head cnt drop =>
    s.fsmIdleQ = false ∧ s.fsmHeadQ = true ∧ s.fsmDataQ = false ∧ s.cntQ = cnt ∧ s.bypassVQ = drop
  | .data drop first =>
    s.fsmIdleQ = false ∧ s.fsmHeadQ = false ∧ s.fsmDataQ = true ∧ s.bypassVQ = drop ∧
      s.fsmHead2q = first
  | .idle => s.fsmIdleQ = true ∧ s.fsmHeadQ = false ∧ s.fsmDataQ = false

theorem Reads.stall (h : Reads s r) (hb : beat i = none) : Reads (next p true s i) r := by
  rw [beat_eq_none] at hb
  cases r <;> simp_all [Reads, next, cntEn]

theorem Reads.out_eq (h : Reads s r) (hb : beat i = some u) : port (out s i) = r.out u := by
  obtain ⟨hv, _, ht, htl, hd, _⟩ := beat_eq_some.1 hb
  cases r with
  | head => simp [port, out, validO, Reader.out, h.2.2.1]
  | data drop first =>
    obtain ⟨_, _, hdt, hdr, hf⟩ := h
    cases drop <;> simp [port, out, validO, startO, Reader.out, hv, hdt, hdr, hf, ht, htl, hd]
  | idle => simp [port, out, validO, Reader.out, h.2.2]

theorem Reads.step (h : Reads s r) (hr : r ≠ .idle) (hb : beat i = some u)
    (hcan : i.cancelI = false) (hlen : i.lenI = 2) : Reads (next p true s i) (r.next u) := by
  obtain ⟨hv, _, ht, _⟩ := beat_eq_some.1 hb
  cases r with
  | head cnt drop =>
    obtain ⟨hi, hh, hdt, hc, hdr⟩ := h
    have hadd : cntAdd s i = cnt + 2 := by
      simp [cntAdd, hc, hv, hlen]
    by_cases hend : (cnt + 2).extractLsb' 0 4 = 8#4
    · have hend' : endHeadV s i = true := by
        rw [endHeadV, hadd, hend]
        rfl
      rw [Reader.next, if_pos hend]
      simp [Reads, next, fsmIdleNext, fsmHeadNext, fsmDataNext, hi, hh, hdt, hv, hcan, hend', hdr]
    · have hend' : endHeadV s i = false := by
        rw [endHeadV, hadd, beq_eq_false_iff_ne]
        exact hend
      rw [Reader.next, if_neg hend]
      simp [Reads, next, fsmIdleNext, fsmHeadNext, fsmDataNext, cntEn, cntNext, cntRst, hi, hh, hdt,
        hv, hcan, hend', hdr, hadd]
  | data drop first =>
    obtain ⟨hi, hh, hdt, hdr, hf⟩ := h
    cases htb : u.term <;> rw [htb] at ht <;>
      simp [Reader.next, Reads, next, fsmIdleNext, fsmHeadNext, fsmDataNext, hi, hh, hdt, hv, hcan,
        ht, htb, hdr]
  | idle => exact absurd rfl hr

theorem follows (p : Params) : Follows ((machine p).under Contract) reader (fun i => beat i.1) port
    (fun r _ => r ≠ .idle) Reads where
  stall h hb := h.stall hb
  stall_out _ hb := stall_out hb
  step {_ _ i _} h hb hr := by
    obtain ⟨hcan, hlen⟩ := i.2 (beat_eq_some.1 hb).1
    exact h.step hr hb hcan hlen
  step_out h hb _ := h.out_eq hb

def dropped (p : Params) (s : State) (u : Beat) : Bool :=
  s.bypassVQ || (s.cntQ.extractLsb' 0 4 == 0 && swapLanes u.data != p.srcPort) || u.csErr

theorem reads_first (h : Reads s .idle) (hb : beat i = some u) (hs : u.start = true)
    (hcan : i.cancelI = false) (hlen : i.lenI = 2) :
    Reads (next p true s i) (.head (s.cntQ + 2) (dropped p s u)) := by
  obtain ⟨hv, hst, _, _, hd, he⟩ := beat_eq_some.1 hb
  obtain ⟨hi, hh, hdt⟩ := h
  rw [hs] at hst
  simp [Reads, next, fsmIdleNext, fsmHeadNext, fsmDataNext, cntEn, cntNext, cntRst, cntAdd,
    bypassVNext, dcdV, srcDcdV, dstDcdV, srcPortCntV, dstPortCntV, dropped, hst, hv, hi, hh, hdt,
    hcan, hlen, hd, he, Bool.or_assoc]

/-- The beats of one payload: a start on the first, a term on the last only. -/
structure Delimited (us : List Beat) : Prop where
  start : ∀ u ∈ us.head?, u.start = true
  term : ∀ k u, us[k]? = some u → (u.term = true ↔ k + 1 = us.length)
  nonempty : us ≠ []

/-- The beats read as a header by a receiver whose counter begins at `c`, an even number. -/
def headBeats (c : BitVec 16) : Nat := 2 + (20 - c.toNat % 16) % 16 / 2

def Past (c : BitVec 16) (k : Nat) : Prop := c.toNat % 2 = 0 ∧ headBeats c ≤ k

instance : Decidable (Past c k) := inferInstanceAs (Decidable (_ ∧ _))

theorem two_le_headBeats (c : BitVec 16) : 2 ≤ headBeats c := Nat.le_add_right _ _

theorem past_succ (hk : ¬ Past c k) (h1 : 1 ≤ k) :
    (c + BitVec.ofNat 16 (2 * k) + 2).extractLsb' 0 4 = 8#4 ↔ Past c (k + 1) := by
  have hc := c.isLt
  rw [← BitVec.toNat_inj, BitVec.extractLsb'_toNat, BitVec.toNat_add, BitVec.toNat_add,
    BitVec.toNat_ofNat, Nat.shiftRight_zero]
  change (_ + 2) % 2 ^ 16 % 2 ^ 4 = 8 ↔ _
  unfold Past headBeats at *
  omega

def readerAt (c : BitVec 16) (drop : Bool) (n k : Nat) : Reader :=
  if ¬ Past c k then .head (c + BitVec.ofNat 16 (2 * k)) drop
  else if k = headBeats c ∨ k < n then .data drop (decide (k = headBeats c))
  else .idle

theorem Delimited.next_readerAt (h : Delimited us) (hu : us[k]? = some u) (h1 : 1 ≤ k) :
    (readerAt c drop us.length k).next u = readerAt c drop us.length (k + 1) := by
  have hlt := (List.getElem?_eq_some_iff.1 hu).1
  by_cases hp : Past c k
  · have hp' : Past c (k + 1) := ⟨hp.1, Nat.le_succ_of_le hp.2⟩
    have hne : k + 1 ≠ headBeats c := Nat.ne_of_gt (Nat.lt_succ_of_le hp.2)
    by_cases hend : k + 1 = us.length
    · have ht : u.term = true := (h.term k u hu).2 hend
      have hge : ¬ k + 1 < us.length := Nat.not_lt.2 (Nat.le_of_eq hend.symm)
      simp [readerAt, Reader.next, hp, hp', hlt, ht, hne, hge]
    · have ht : u.term = false := Bool.eq_false_iff.2 fun ht => hend ((h.term k u hu).1 ht)
      have hlt' : k + 1 < us.length := Nat.lt_of_le_of_ne hlt hend
      simp [readerAt, Reader.next, hp, hp', hlt, ht, hne, hlt']
  · have hcnt : c + BitVec.ofNat 16 (2 * k) + 2 = c + BitVec.ofNat 16 (2 * (k + 1)) := by
      rw [BitVec.add_assoc]
      exact congrArg (c + ·) (BitVec.ofNat_add (2 * k) 2).symm
    rw [readerAt, if_pos hp, Reader.next]
    by_cases hend : Past c (k + 1)
    · have heq : k + 1 = headBeats c :=
        Nat.le_antisymm (Nat.lt_of_not_le fun hle => hp ⟨hend.1, hle⟩) hend.2
      rw [if_pos ((past_succ hp h1).2 hend), readerAt, if_neg (not_not.2 hend), if_pos (.inl heq),
        decide_eq_true heq]
    · rw [if_neg (mt (past_succ hp h1).1 hend), readerAt, if_pos hend, hcnt]

theorem readerAt_busy (hk : k < n) : readerAt c drop n k ≠ .idle := by
  rw [readerAt]
  split
  · exact Reader.noConfusion
  · rw [if_pos (.inr hk)]
    exact Reader.noConfusion

def Kept (p : Params) (s : State) (us : List Beat) : Prop := ∀ u ∈ us.head?, dropped p s u = false

instance : Decidable (Kept p s us) := inferInstanceAs (Decidable (∀ _ ∈ _, _))

/-- What the application gets with each beat. -/
def expected (p : Params) (s : State) (us : List Beat) : List (Option AppBeat) :=
  us.mapIdx fun k u =>
    if Past s.cntQ k ∧ Kept p s us then
      some ⟨decide (k = headBeats s.cntQ), u.term, u.termLen, u.data⟩
    else none

theorem out_readerAt (hk : k < n) (u : Beat) : (readerAt c drop n k).out u =
    if Past c k ∧ drop = false then
      some ⟨decide (k = headBeats c), u.term, u.termLen, u.data⟩ else none := by
  by_cases hp : Past c k
  · cases drop <;> simp [readerAt, Reader.out, hp, hk]
  · simp [readerAt, Reader.out, hp]

/-- One payload, presented to a receiver that is idle. -/
structure Presented (s : State) (is : List In) (us : List Beat) : Prop where
  idle : Sim s .idle
  carried : Carried beat Contract is us
  delimited : Delimited us

theorem Presented.found_idle (h : Presented s is us) (p : Params) :
    Sim (found (machine p) beat s is) .idle :=
  found_of_stall (P := fun s => Sim s .idle) (fun h hb => h.stall hb) h.idle is

theorem Presented.received (h : Presented s is us) (p : Params) :
    (∃ drop, Reads ((machine p).run s is)
      (readerAt (found (machine p) beat s is).cntQ drop us.length us.length)) ∧
      answers (machine p) beat port s is = expected p (found (machine p) beat s is) us := by
  have hidle := h.found_idle p
  obtain ⟨_, hc, h⟩ := h
  generalize hs : found (machine p) beat s is = s₁ at *
  obtain ⟨u, rest, rfl⟩ := List.exists_cons_of_ne_nil h.nonempty
  have hpos : ¬ Past s₁.cntQ 0 := fun hp =>
    absurd hp.2 (Nat.not_le.2 (Nat.lt_of_lt_of_le Nat.two_pos (two_le_headBeats _)))
  have hpos' : ¬ Past s₁.cntQ 1 := fun hp =>
    absurd hp.2 (Nat.not_le.2 (two_le_headBeats _))
  have hstart : u.start = true := h.start u rfl
  generalize hd : dropped p s₁ u = drop
  have hfirst : readerAt s₁.cntQ drop (u :: rest).length 1 = .head (s₁.cntQ + 2) drop :=
    if_pos hpos'
  have hsched (k : Nat) (v : Beat) (hv : rest[k]? = some v) :
      reader.next (readerAt s₁.cntQ drop (u :: rest).length (k + 1)) v =
        readerAt s₁.cntQ drop (u :: rest).length (k + 1 + 1) :=
    h.next_readerAt (k := k + 1) hv (Nat.succ_pos k)
  obtain ⟨hrel, hans⟩ : Reads ((machine p).run s is) _ ∧ answers (machine p) beat port s is = _ :=
    (follows p).from_found (x := readerAt s₁.cntQ drop (u :: rest).length 1) (c := none) hc
    (by
      intro i hi hb
      obtain ⟨hcan, hlen⟩ := hi (beat_eq_some.1 hb).1
      rw [hs, hfirst, ← hd]
      exact reads_first hidle hb hstart hcan hlen)
    (by
      intro i _ hb
      rw [hs]
      exact Reads.out_eq (r := .idle) hidle hb)
    (by
      apply Mealy.along_schedule (fun k => readerAt s₁.cntQ drop (u :: rest).length (k + 1)) hsched
      intro k v hv
      exact readerAt_busy (Nat.succ_lt_succ (List.getElem?_eq_some_iff.1 hv).1))
  have hrun : reader.run _ rest = readerAt s₁.cntQ drop (u :: rest).length (rest.length + 1) :=
    Mealy.run_schedule (fun k => readerAt s₁.cntQ drop (u :: rest).length (k + 1)) hsched
  have htrace : reader.trace _ rest = _ :=
    Mealy.trace_schedule (fun k => readerAt s₁.cntQ drop (u :: rest).length (k + 1)) hsched
  refine ⟨⟨drop, hrun ▸ hrel⟩, ?_⟩
  rw [hans, htrace, expected, List.mapIdx_cons, if_neg fun hp => hpos hp.1]
  apply congrArg (none :: ·)
  rw [List.mapIdx_eq_mapIdx_iff]
  intro k hk
  have hiff : Kept p s₁ (u :: rest) ↔ drop = false := by
    rw [← hd]
    simp [Kept]
  simp only [hiff]
  exact out_readerAt (Nat.succ_lt_succ hk) _

/-- The payload carries the bytes `bs`, the last beat being half full when their number is odd. -/
structure CarriesBytes (us : List Beat) (bs : List Byte) : Prop extends Delimited us where
  data : ∃ x, us.map Beat.data = pack x bs
  termLen : ∀ u ∈ us, u.term = true → u.termLen = if bs.length % 2 = 0 then 2 else 1

theorem CarriesBytes.length_eq (h : CarriesBytes us bs) : us.length = (bs.length + 1) / 2 := by
  obtain ⟨x, hx⟩ := h.data
  rw [← length_pack x, ← hx, List.length_map]

def beatsOf (bs : List Byte) : List Beat :=
  (pack 0 bs).mapIdx fun k w =>
    ⟨decide (k = 0), decide (k + 1 = (pack 0 bs).length), if bs.length % 2 = 0 then 2 else 1, w,
      false⟩

theorem getElem?_beatsOf {u : Beat} (h : (beatsOf bs)[k]? = some u) :
    ∃ w, u = ⟨decide (k = 0), decide (k + 1 = (pack 0 bs).length),
      if bs.length % 2 = 0 then 2 else 1, w, false⟩ := by
  rw [beatsOf, List.getElem?_mapIdx, Option.map_eq_some_iff] at h
  obtain ⟨w, _, rfl⟩ := h
  exact ⟨w, rfl⟩

theorem length_beatsOf (bs : List Byte) : (beatsOf bs).length = (pack 0 bs).length :=
  List.length_mapIdx

theorem carriesBytes_beatsOf (hne : bs ≠ []) : CarriesBytes (beatsOf bs) bs where
  start u hu := by
    rw [List.head?_eq_getElem?] at hu
    obtain ⟨w, rfl⟩ := getElem?_beatsOf hu
    rfl
  term k u hu := by
    rw [length_beatsOf]
    obtain ⟨w, rfl⟩ := getElem?_beatsOf hu
    exact decide_eq_true_iff
  nonempty := by
    have hpos := List.length_pos_of_ne_nil hne
    apply List.ne_nil_of_length_pos
    rw [length_beatsOf, length_pack]
    omega
  data := by
    refine ⟨0, ?_⟩
    apply List.ext_getElem
    · rw [List.length_map, length_beatsOf]
    · intro k _ _
      simp [beatsOf]
  termLen u hu _ := by
    obtain ⟨k, hk⟩ := List.mem_iff_getElem?.1 hu
    obtain ⟨w, rfl⟩ := getElem?_beatsOf hk
    rfl

theorem csErr_beatsOf {u : Beat} (h : u ∈ beatsOf bs) : u.csErr = false := by
  obtain ⟨k, hk⟩ := List.mem_iff_getElem?.1 h
  obtain ⟨w, rfl⟩ := getElem?_beatsOf hk
  rfl

def feed (u : Beat) : In := ⟨false, true, u.start, u.term, u.termLen, u.data, 2, u.csErr⟩

theorem carried_feed (us : List Beat) : Carried beat Contract (us.map feed) us where
  beats := by
    rw [List.filterMap_map]
    exact (List.filterMap_congr fun _ _ => rfl).trans List.filterMap_some
  good i hi := by
    obtain ⟨u, _, rfl⟩ := List.mem_map.1 hi
    exact fun _ => ⟨rfl, rfl⟩

def between : State := ⟨true, false, false, 0, false, false⟩

theorem presented_beatsOf (hne : bs ≠ []) :
    Presented between ((beatsOf bs).map feed) (beatsOf bs) where
  idle := ⟨rfl, rfl, rfl⟩
  carried := carried_feed _
  delimited := (carriesBytes_beatsOf hne).toDelimited

def portAt (k : Nat) (us : List Beat) : Option (BitVec 16) := us[k]?.map fun u => swapLanes u.data

def PortsMatch (p : Params) (us : List Beat) : Prop :=
  portAt 0 us = some p.srcPort ∧ portAt 1 us = some p.dstPort

/-- The answers to a datagram when both ports are checked. -/
structure PortFilter (p : Params) (us : List Beat) (answers : List (Option AppBeat)) : Prop where
  payload : (∀ k, 4 ≤ k → k < us.length → ∃ a, answers[k]? = some (some a)) ↔ PortsMatch p us
  mismatch : ¬ PortsMatch p us → ∀ a ∈ answers, a = none

theorem kept_iff (hne : us ≠ []) (hcs : ∀ u ∈ us, u.csErr = false) : Kept p s us ↔
    s.bypassVQ = false ∧ (s.cntQ.extractLsb' 0 4 = 0 → portAt 0 us = some p.srcPort) := by
  obtain ⟨u, rest, rfl⟩ := List.exists_cons_of_ne_nil hne
  have hu : u.csErr = false := hcs u List.mem_cons_self
  simp [Kept, dropped, portAt, hu]

theorem Past.mono (h : Past c j) (hle : j ≤ k) : Past c k := ⟨h.1, Nat.le_trans h.2 hle⟩

theorem shows_iff : (∃ a, (expected p s us)[k]? = some (some a)) ↔
    k < us.length ∧ Past s.cntQ k ∧ Kept p s us := by
  rw [expected, List.getElem?_mapIdx]
  constructor
  · rintro ⟨a, ha⟩
    obtain ⟨u, hu, hif⟩ := Option.map_eq_some_iff.1 ha
    have hshown : Past s.cntQ k ∧ Kept p s us := by
      by_contra hno
      rw [if_neg hno] at hif
      cases hif
    exact ⟨(List.getElem?_eq_some_iff.1 hu).1, hshown⟩
  · rintro ⟨hk, hshown⟩
    rw [List.getElem?_eq_getElem hk, Option.map_some, if_pos hshown]
    exact ⟨_, rfl⟩

theorem silent_iff (hne : us ≠ []) : (∀ a ∈ expected p s us, a = none) ↔
    ¬ (Past s.cntQ (us.length - 1) ∧ Kept p s us) := by
  have hpos := List.length_pos_of_ne_nil hne
  have hlast : us.length - 1 < us.length := Nat.sub_lt hpos Nat.one_pos
  constructor
  · intro hall hshown
    obtain ⟨a, ha⟩ := shows_iff.2 ⟨hlast, hshown⟩
    cases hall _ (List.mem_of_getElem? ha)
  · intro hno a ha
    cases a with
    | none => rfl
    | some a =>
      obtain ⟨k, hk⟩ := List.mem_iff_getElem?.1 ha
      obtain ⟨hlt, hpast, hkept⟩ := shows_iff.1 ⟨a, hk⟩
      exact absurd ⟨hpast.mono (Nat.le_sub_one_of_lt hlt), hkept⟩ hno

/-- What is asked of a datagram and of the state `s` that it finds. The destination port is never
looked at, and the source port only if the counter is at it. -/
structure Filters (p : Params) (s : State) (us : List Beat) : Prop where
  matching : PortsMatch p us → s.bypassVQ = false ∧ Past s.cntQ 4
  other : ¬ PortsMatch p us → s.bypassVQ = true ∨ ¬ Past s.cntQ (us.length - 1) ∨
    (s.cntQ.extractLsb' 0 4 = 0 ∧ portAt 0 us ≠ some p.srcPort)

theorem PortFilter.filters (hf : PortFilter p us (expected p s us)) (h5 : 5 ≤ us.length)
    (hcs : ∀ u ∈ us, u.csErr = false) : Filters p s us := by
  have hne : us ≠ [] := List.ne_nil_of_length_pos (Nat.lt_of_lt_of_le (Nat.succ_pos 4) h5)
  constructor
  · intro hmatch
    obtain ⟨_, hpast, hkept⟩ := shows_iff.1 (hf.payload.2 hmatch 4 (Nat.le_refl 4) h5)
    exact ⟨((kept_iff hne hcs).1 hkept).1, hpast⟩
  · intro hmiss
    have hsilent := (silent_iff hne).1 (hf.mismatch hmiss)
    rw [kept_iff hne hcs] at hsilent
    cases hb : s.bypassVQ with
    | true => exact .inl rfl
    | false =>
      by_cases hpast : Past s.cntQ (us.length - 1)
      · by_cases h0 : s.cntQ.extractLsb' 0 4 = 0
        · exact .inr (.inr ⟨h0, fun hsrc => hsilent ⟨hpast, hb, fun _ => hsrc⟩⟩)
        · exact absurd ⟨hpast, hb, fun h => absurd h h0⟩ hsilent
      · exact .inr (.inl hpast)

theorem Filters.portFilter (hf : Filters p s us) (h5 : 5 ≤ us.length)
    (hcs : ∀ u ∈ us, u.csErr = false) : PortFilter p us (expected p s us) := by
  have hne : us ≠ [] := List.ne_nil_of_length_pos (Nat.lt_of_lt_of_le (Nat.succ_pos 4) h5)
  by_cases hm : PortsMatch p us
  · obtain ⟨hb, hpast⟩ := hf.matching hm
    have hkept : Kept p s us := (kept_iff hne hcs).2 ⟨hb, fun _ => hm.1⟩
    constructor
    · exact ⟨fun _ => hm, fun _ k h4 hk => shows_iff.2 ⟨hk, hpast.mono h4, hkept⟩⟩
    · exact fun hmiss => absurd hm hmiss
  · have hsilent : ∀ a ∈ expected p s us, a = none := by
      rw [silent_iff hne, kept_iff hne hcs]
      rintro ⟨hpast, hb, hsrc⟩
      rcases hf.other hm with h | h | ⟨h0, hport⟩
      · exact Bool.noConfusion (hb.symm.trans h)
      · exact h hpast
      · exact hport (hsrc h0)
    constructor
    · refine ⟨fun hvalid => ?_, fun h => absurd h hm⟩
      obtain ⟨a, ha⟩ := hvalid 4 (Nat.le_refl 4) h5
      cases hsilent _ (List.mem_of_getElem? ha)
    · exact fun _ => hsilent

/-- When the port filter works, whatever state the datagram finds. -/
theorem portFilter_iff (p : Params) (h : Presented s is us) (h5 : 5 ≤ us.length)
    (hcs : ∀ u ∈ us, u.csErr = false) :
    PortFilter p us (answers (machine p) beat port s is) ↔
      Filters p (found (machine p) beat s is) us := by
  rw [(h.received p).2]
  exact ⟨fun hf => hf.filters h5 hcs, fun hf => hf.portFilter h5 hcs⟩

theorem Clear.filters_iff (h : Clear s) (h5 : 5 ≤ us.length) : Filters p s us ↔
    (portAt 0 us = some p.srcPort → portAt 1 us = some p.dstPort) := by
  obtain ⟨hc, hb⟩ := h
  have hpast (k : Nat) (h4 : 4 ≤ k) : Past s.cntQ k := by
    rw [hc]
    exact ⟨rfl, h4⟩
  have h0 : s.cntQ.extractLsb' 0 4 = 0 := by
    rw [hc]
    rfl
  constructor
  · intro hf hsrc
    by_contra hdst
    rcases hf.other fun hm => hdst hm.2 with h | h | ⟨_, h⟩
    · exact Bool.noConfusion (hb.symm.trans h)
    · exact h (hpast _ (Nat.le_sub_one_of_lt h5))
    · exact h hsrc
  · intro hdst
    constructor
    · exact fun _ => ⟨hb, hpast 4 (Nat.le_refl 4)⟩
    · exact fun hmiss => .inr (.inr ⟨h0, fun hsrc => hmiss ⟨hsrc, hdst hsrc⟩⟩)

def ports : Params := ⟨18070, 18070⟩

def sample (dst : BitVec 16) : List Byte :=
  be16 18070 ++ be16 dst ++ be16 10 ++ be16 0 ++ [0xca, 0xfe]

theorem presented_sample (dst : BitVec 16) :
    Presented between ((beatsOf (sample dst)).map feed) (beatsOf (sample dst)) :=
  presented_beatsOf (List.cons_ne_nil _ _)

theorem found_feed (p : Params) (hne : bs ≠ []) :
    found (machine p) beat between ((beatsOf bs).map feed) = between := by
  obtain ⟨u, us, hus⟩ := List.exists_cons_of_ne_nil (carriesBytes_beatsOf hne).nonempty
  rw [hus]
  rfl

theorem clear_between : Clear between := ⟨rfl, rfl⟩

theorem portFilter_sample : 5 ≤ (beatsOf (sample 18070)).length ∧
    PortFilter ports (beatsOf (sample 18070))
      (answers (machine ports) beat port between ((beatsOf (sample 18070)).map feed)) := by
  have h5 : 5 ≤ (beatsOf (sample 18070)).length := Nat.le_refl 5
  have hne : sample 18070 ≠ [] := List.cons_ne_nil _ _
  refine ⟨h5, (portFilter_iff ports (presented_sample 18070) h5 fun _ => csErr_beatsOf).2 ?_⟩
  rw [found_feed ports hne, clear_between.filters_iff h5]
  decide

/-- A datagram to another port is handed on. -/
theorem portFilter_other_port :
    Presented between ((beatsOf (sample 80)).map feed) (beatsOf (sample 80)) ∧
      5 ≤ (beatsOf (sample 80)).length ∧ (∀ u ∈ beatsOf (sample 80), u.csErr = false) ∧
      ¬ PortFilter ports (beatsOf (sample 80))
        (answers (machine ports) beat port between ((beatsOf (sample 80)).map feed)) := by
  have hp := presented_sample 80
  have h5 : 5 ≤ (beatsOf (sample 80)).length := Nat.le_refl 5
  have hne : sample 80 ≠ [] := List.cons_ne_nil _ _
  refine ⟨hp, h5, fun _ => csErr_beatsOf, fun hf => ?_⟩
  rw [(hp.received ports).2, found_feed ports hne] at hf
  have hdst := (clear_between.filters_iff h5).1 (hf.filters h5 fun _ => csErr_beatsOf)
  exact absurd (hdst (by decide)) (by decide)

/-- What a payload of any length asks for: the circuit is exactly in idle after it, a header on its
own shows nothing, and all bytes after a header that passes are handed on. -/
structure Handled (p : Params) (us : List Beat) (bs : List Byte) (s' : State)
    (answers : List (Option AppBeat)) : Prop where
  idle : s'.fsmIdleQ = true ∧ s'.fsmHeadQ = false ∧ s'.fsmDataQ = false
  short : bs.length ≤ 8 → ∀ a ∈ answers, a = none
  long : 8 < bs.length → PortsMatch p us → (∀ u ∈ us, u.csErr = false) →
    (answers.filterMap id).flatMap EthRx.AppBeat.bytes = bs.drop 8

theorem CarriesBytes.bytes_shown (h : CarriesBytes us bs) (hj : j < us.length) :
    (shown true (us.drop j)).flatMap EthRx.AppBeat.bytes = bs.drop (2 * j) := by
  obtain ⟨x, hx⟩ := h.data
  have hlen := h.length_eq
  have hsize : (bs.drop (2 * j)).length = bs.length - 2 * j := List.length_drop
  have hpar : (bs.drop (2 * j)).length % 2 = bs.length % 2 := by omega
  have hwords : (us.drop j).map Beat.data = pack x (bs.drop (2 * j)) := by
    rw [List.map_drop, hx, pack_drop]
  have hbytes := bytes_pack x (bs.drop (2 * j)) [] (if bs.length % 2 = 0 then 2 else 1)
    (by rw [hpar])
  have htake : (pack x (bs.drop (2 * j))).take (((bs.drop (2 * j)).length + 1) / 2) =
      pack x (bs.drop (2 * j)) := by
    apply List.take_of_length_le
    rw [length_pack]
  rw [List.append_nil, htake, ← hwords] at hbytes
  rw [← hbytes, shown, List.flatMap_def, map_mapIdx]
  apply congrArg List.flatten
  apply List.ext_getElem?
  intro k
  rw [List.getElem?_mapIdx, List.getElem?_mapIdx, List.getElem?_map]
  cases hu : (us.drop j)[k]? with
  | none => rfl
  | some u =>
    have hu' : us[j + k]? = some u := by rwa [List.getElem?_drop] at hu
    have hterm : u.term = true ↔ k + 1 = (bs.length - 2 * j + 1) / 2 := by
      rw [h.term (j + k) u hu']
      omega
    cases ht : u.term with
    | true =>
      have hl := h.termLen u (List.mem_of_getElem? hu') ht
      simp [EthRx.AppBeat.bytes, hterm.1 ht, ht, hl]
    | false =>
      have hne : ¬ k + 1 = (bs.length - 2 * j + 1) / 2 :=
        fun he => Bool.noConfusion (ht.symm.trans (hterm.2 he))
      simp [EthRx.AppBeat.bytes, hne, ht]

theorem filterMap_expected (hk : Kept p s us) (hp : Past s.cntQ (us.length - 1)) :
    (expected p s us).filterMap id = shown true (us.drop (headBeats s.cntQ)) := by
  have hle : headBeats s.cntQ ≤ us.length := Nat.le_trans hp.2 (Nat.sub_le _ _)
  have hlen : (us.take (headBeats s.cntQ)).length = headBeats s.cntQ := List.length_take_of_le hle
  have hnone (f : Nat → Beat → Option AppBeat) (vs : List Beat)
      (hf : ∀ k v, k < vs.length → f k v = none) : (vs.mapIdx f).filterMap id = [] := by
    rw [List.filterMap_eq_nil_iff]
    intro a ha
    obtain ⟨k, hlt, rfl⟩ := List.mem_mapIdx.1 ha
    exact hf _ _ hlt
  have hsome (f : Nat → Beat → AppBeat) (vs : List Beat) :
      (vs.mapIdx fun k v => some (f k v)).filterMap id = vs.mapIdx f := by
    rw [← map_mapIdx some, List.filterMap_map]
    exact List.filterMap_some
  rw [expected]
  conv => lhs; rw [← List.take_append_drop (headBeats s.cntQ) us]
  rw [List.mapIdx_append, List.filterMap_append, hnone, List.nil_append, shown, ← hsome]
  · apply congrArg
    rw [List.mapIdx_eq_mapIdx_iff]
    intro k _
    have hpast : Past s.cntQ (k + headBeats s.cntQ) := ⟨hp.1, Nat.le_add_left _ _⟩
    rw [hlen, if_pos ⟨hpast, by rwa [List.take_append_drop]⟩]
    simp
  · intro k v hlt
    rw [hlen] at hlt
    exact if_neg fun h => absurd h.1.2 (Nat.not_le.2 hlt)

/-- What is asked of a payload and of the state `s` that it finds. -/
structure Handles (p : Params) (s : State) (us : List Beat) (bs : List Byte) : Prop where
  ended : Past s.cntQ (us.length - 1)
  short : bs.length ≤ 8 → s.bypassVQ = true ∨ ∃ u ∈ us.head?, u.csErr = true
  long : 8 < bs.length → PortsMatch p us → (∀ u ∈ us, u.csErr = false) →
    s.bypassVQ = false ∧ headBeats s.cntQ = 4

theorem Presented.idle_iff (h : Presented s is us) (p : Params) :
    Sim ((machine p).run s is) .idle ↔
      Past (found (machine p) beat s is).cntQ (us.length - 1) := by
  obtain ⟨⟨drop, hreads⟩, _⟩ := h.received p
  have hpos := List.length_pos_of_ne_nil h.delimited.nonempty
  rw [readerAt] at hreads
  generalize (found (machine p) beat s is).cntQ = c at *
  by_cases hp : Past c us.length
  · by_cases heq : us.length = headBeats c
    · rw [if_neg (not_not.2 hp), if_pos (.inl heq)] at hreads
      refine iff_of_false (fun hi => Bool.noConfusion (hreads.1.symm.trans hi.1)) fun hlast => ?_
      have := hlast.2
      omega
    · rw [if_neg (not_not.2 hp), if_neg (by omega)] at hreads
      refine iff_of_true hreads ⟨hp.1, ?_⟩
      have := hp.2
      omega
  · rw [if_pos hp] at hreads
    exact iff_of_false (fun hi => Bool.noConfusion (hreads.1.symm.trans hi.1))
      fun hlast => hp (hlast.mono (Nat.sub_le _ _))

theorem not_at_port (h : headBeats c ≠ 4) : ¬ c.extractLsb' 0 4 = 0#4 := by
  intro h0
  have h0' := congrArg BitVec.toNat h0
  rw [BitVec.extractLsb'_toNat, Nat.shiftRight_zero] at h0'
  change c.toNat % 2 ^ 4 = 0 at h0'
  unfold headBeats at h
  omega

theorem short_kept_iff (hne : us ≠ []) (h4 : headBeats s.cntQ ≠ 4) :
    Kept p s us ↔ ¬ (s.bypassVQ = true ∨ ∃ u ∈ us.head?, u.csErr = true) := by
  obtain ⟨u, rest, rfl⟩ := List.exists_cons_of_ne_nil hne
  have hport := not_at_port h4
  cases hb : s.bypassVQ <;> cases he : u.csErr <;> simp [Kept, dropped, hport, hb, he]

theorem CarriesBytes.long_iff (h : CarriesBytes us bs) (h8 : 8 < bs.length)
    (hp : Past s.cntQ (us.length - 1)) (hm : PortsMatch p us) (hcs : ∀ u ∈ us, u.csErr = false) :
    ((expected p s us).filterMap id).flatMap EthRx.AppBeat.bytes = bs.drop 8 ↔
      s.bypassVQ = false ∧ headBeats s.cntQ = 4 := by
  have hkept := kept_iff (p := p) (s := s) h.nonempty hcs
  have hlen := h.length_eq
  have hle := hp.2
  have hsize : (bs.drop 8).length = bs.length - 8 := List.length_drop
  by_cases hk : Kept p s us
  · have hb := (hkept.1 hk).1
    rw [filterMap_expected hk hp, h.bytes_shown (by omega)]
    constructor
    · intro heq
      have heq' := congrArg List.length heq
      rw [List.length_drop, List.length_drop] at heq'
      exact ⟨hb, by omega⟩
    · rintro ⟨_, h4⟩
      rw [h4]
  · have hsilent := (silent_iff h.nonempty).2 fun hs => hk hs.2
    have hnil : (expected p s us).filterMap id = [] := List.filterMap_eq_nil_iff.2 hsilent
    rw [hnil]
    refine iff_of_false (fun heq => ?_) fun hb => hk (hkept.2 ⟨hb.1, fun _ => hm.1⟩)
    have heq' := congrArg List.length heq
    rw [hsize] at heq'
    change 0 = _ at heq'
    omega

/-- When a payload is handled, whatever state it finds. -/
theorem handled_iff (p : Params) (hp : Presented s is us) (hd : CarriesBytes us bs) :
    Handled p us bs ((machine p).run s is) (answers (machine p) beat port s is) ↔
      Handles p (found (machine p) beat s is) us bs := by
  have hidle := hp.idle_iff p
  rw [(hp.received p).2]
  generalize found (machine p) beat s is = s₁ at *
  have hlen := hd.length_eq
  have hsilent := silent_iff (p := p) (s := s₁) hd.nonempty
  have hshort (hlast : Past s₁.cntQ (us.length - 1)) (h8 : bs.length ≤ 8) :
      (∀ a ∈ expected p s₁ us, a = none) ↔ s₁.bypassVQ = true ∨ ∃ u ∈ us.head?, u.csErr = true := by
    have h4 : headBeats s₁.cntQ ≠ 4 := by
      have := hlast.2
      omega
    rw [hsilent, short_kept_iff hd.nonempty h4, not_and, not_not]
    exact ⟨fun h => h hlast, fun h _ => h⟩
  constructor
  · intro h
    have hlast := hidle.1 h.idle
    exact ⟨hlast, fun h8 => (hshort hlast h8).1 (h.short h8),
      fun h8 hm hcs => (hd.long_iff h8 hlast hm hcs).1 (h.long h8 hm hcs)⟩
  · intro h
    exact ⟨hidle.2 h.ended, fun h8 => (hshort h.ended h8).2 (h.short h8),
      fun h8 hm hcs => (hd.long_iff h8 h.ended hm hcs).2 (h.long h8 hm hcs)⟩

theorem Clear.handles_iff (h : Clear s) (hd : CarriesBytes us bs) :
    Handles p s us bs ↔ 8 < bs.length := by
  obtain ⟨hc, hb⟩ := h
  have h4 : headBeats s.cntQ = 4 := by
    rw [hc]
    rfl
  have hlen := hd.length_eq
  constructor
  · intro hh
    have hle := hh.ended.2
    omega
  · intro h8
    refine ⟨⟨?_, ?_⟩, fun hle => absurd h8 (Nat.not_lt.2 hle), fun _ _ _ => ⟨hb, h4⟩⟩
    · rw [hc]
      rfl
    · omega

theorem handled_sample : 8 < (sample 18070).length ∧
    Handled ports (beatsOf (sample 18070)) (sample 18070)
      ((machine ports).run between ((beatsOf (sample 18070)).map feed))
      (answers (machine ports) beat port between ((beatsOf (sample 18070)).map feed)) := by
  have hne : sample 18070 ≠ [] := List.cons_ne_nil _ _
  have hd := carriesBytes_beatsOf hne
  refine ⟨by decide, (handled_iff ports (presented_sample 18070) hd).2 ?_⟩
  rw [found_feed ports hne, clear_between.handles_iff hd]
  decide

def empty : List Byte := be16 18070 ++ be16 18070 ++ be16 8 ++ be16 0

theorem empty_not_handled :
    Presented between ((beatsOf empty).map feed) (beatsOf empty) ∧
      CarriesBytes (beatsOf empty) empty ∧
      ¬ Handled ports (beatsOf empty) empty
        ((machine ports).run between ((beatsOf empty).map feed))
        (answers (machine ports) beat port between ((beatsOf empty).map feed)) := by
  have hne : empty ≠ [] := List.cons_ne_nil _ _
  have hp := presented_beatsOf hne
  have hd := carriesBytes_beatsOf hne
  refine ⟨hp, hd, fun h => ?_⟩
  have hlast := (hp.idle_iff ports).1 h.idle
  rw [found_feed ports hne] at hlast
  exact absurd hlast (by decide)

end LowLatencyEthernet.UdpRx
