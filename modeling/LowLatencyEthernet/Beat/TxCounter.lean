import LowLatencyEthernet.Beat.TxHeader

namespace LowLatencyEthernet.EthTx
set_option autoImplicit true

open Sync

variable {p : Params} {maskO : BitVec 2 → BitVec 2} {s : State p} {init : BitVec (8 * headN p)}

/-- The cycle after `pre` sends the first beat of a frame: its request has just been accepted. -/
def FirstBeat (maskO : BitVec 2 → BitVec 2) (s : State p) (pre : List In) : Prop :=
  ∃ past r, pre = past ++ [r] ∧ Accepted ((machine p maskO).run s past) r

def preWord : Word := MacHeadTx.pre.extractLsb' 0 16

/-- In the cycles of `is` the first beat of each frame is marked and no other beat is, and the
preamble begins with it. -/
structure StartMarked (maskO : BitVec 2 → BitVec 2) (s : State p) (is : List In) : Prop where
  marks : ∀ pre i post, is = pre ++ i :: post →
    (((machine p maskO).out ((machine p maskO).run s pre) i).phyStartO = true ↔
      FirstBeat maskO s pre)
  preamble : ∀ pre i post, is = pre ++ i :: post → FirstBeat maskO s pre →
    ((machine p maskO).out ((machine p maskO).run s pre) i).phyDataO = preWord

/-- A cycle that sends headers, after the request they were loaded with. -/
structure Requested (maskO : BitVec 2 → BitVec 2) (s : State p) (past : List In) (r : In)
    (js : List In) : Prop where
  accepted : Accepted ((machine p maskO).run s past) r
  header : InHeader (headInit p r) ((machine p maskO).run s past).headCntQ (js.length + 1)
    ((machine p maskO).run s (past ++ r :: js))
  low : ∀ m, 1 ≤ m → m ≤ js.length →
    (((machine p maskO).run s past).headCntQ.toNat + 2 * m) % 64 < headN p

theorem Requested.next {r i : In} {past js : List In} (h : Requested maskO s past r js)
    (hl : Live i)
    (hhead : ((machine p maskO).run s (past ++ r :: (js ++ [i]))).fsmHeadQ = true) :
    Requested maskO s past r (js ++ [i]) := by
  have hsplit : past ++ r :: (js ++ [i]) = (past ++ r :: js) ++ [i] := by simp
  rw [hsplit, Mealy.run_append] at hhead
  have hlt := h.header.stays hl hhead
  refine ⟨h.accepted, ?_, ?_⟩
  · have hend : endHeadV ((machine p maskO).run s (past ++ r :: js)) = false := by
      rw [h.header.endHeadV]
      exact decide_eq_false (Nat.not_le.2 hlt)
    have hnext := h.header.next hl hend
    rw [hsplit, Mealy.run_append, List.length_append, List.length_singleton]
    exact hnext
  · intro m h1 hm
    rw [List.length_append, List.length_singleton] at hm
    rcases Nat.eq_or_lt_of_le hm with rfl | hm
    · exact hlt
    · exact h.low m h1 (Nat.le_of_lt_succ hm)

theorem requested {pre : List In} (hone : OneHot bit s) (hidle : s.fsmHeadQ = false)
    (hr : ∀ i ∈ pre, i.phyReadyI = true)
    (hhead : ((machine p maskO).run s pre).fsmHeadQ = true) :
    ∃ past r js, pre = past ++ r :: js ∧ Requested maskO s past r js := by
  induction pre using List.reverseRecOn with
  | nil => exact Bool.noConfusion (hidle.symm.trans hhead)
  | append_singleton pre i ih =>
    have hri : i.phyReadyI = true := hr i (by simp)
    have hone' := oneHot_run hone maskO pre
    obtain ⟨l, hl⟩ := hone'
    have hnext : Codes bit ((machine p maskO).run s (pre ++ [i]))
        (l.next ((machine p maskO).run s pre) i) := by
      rw [Mealy.run_append]
      exact codes_next hl i
    have hfsm : Fsm.head = l.next ((machine p maskO).run s pre) i := by
      have hbit := hnext .head
      have hset : bit ((machine p maskO).run s (pre ++ [i])) .head = true := hhead
      rw [hset] at hbit
      exact of_decide_eq_true hbit.symm
    cases l with
    | idle =>
      have hacc : Accepted ((machine p maskO).run s pre) i := by
        refine ⟨hl.set, ?_⟩
        cases he : i.appEarlyVI <;> cases hc : i.appCancelI <;> simp [Fsm.next, he, hc] at hfsm ⊢
      refine ⟨pre, i, [], rfl, hacc, ?_, ?_⟩
      · rw [Mealy.run_append]
        exact hacc.inHeader hl.oneHot hri
      · intro m h1 h0
        exact absurd h1 (Nat.not_le.2 (Nat.lt_succ_of_le h0))
    | head =>
      have hc : i.appCancelI = false := by
        cases hc : i.appCancelI with
        | false => rfl
        | true => simp [Fsm.next, hc] at hfsm
      obtain ⟨past, r, js, rfl, hreq⟩ := ih (fun j hj => hr j (List.mem_append_left _ hj)) hl.set
      have hsplit : past ++ r :: js ++ [i] = past ++ r :: (js ++ [i]) := by simp
      rw [hsplit] at hhead ⊢
      exact ⟨past, r, js ++ [i], rfl, hreq.next ⟨hc, hri⟩ hhead⟩
    | data => cases hc : i.appCancelI <;> cases ho : i.appLastI <;> simp [Fsm.next, hc, ho] at hfsm
    | foot =>
      cases hc : i.appCancelI <;>
        cases he : endFootV ((machine p maskO).run s pre) <;> simp [Fsm.next, hc, he] at hfsm

theorem InHeader.phyStartO (h : InHeader init c k s) (i : In) :
    (out maskO s i).phyStartO = decide ((c.toNat + 2 * k) % 64 = 0) := by
  obtain ⟨_, hh, _⟩ := codes_iff.1 h.codes
  have hcnt : s.headCntQ.toNat = (c.toNat + 2 * k) % 64 := by
    rw [h.cnt, BitVec.toNat_add, BitVec.toNat_ofNat, Nat.add_mod_mod]
  have hzero : headCntZero s = decide ((c.toNat + 2 * k) % 64 = 0) := by
    rw [headCntZero, ← hcnt, beq_eq_decide, decide_eq_decide, ← BitVec.toNat_inj]
    rfl
  simp [out, dataStart, hzero, hh]

theorem InHeader.first_word {r : In} (h : InHeader (headInit p r) c 1 s) (i : In) :
    (out maskO s i).phyDataO = p.srcPort := by
  have hN := headN_cases p
  rw [h.word (by omega)]
  apply BitVec.eq_of_getLsbD_eq
  intro j hj
  have h8 : j < 8 * headN p := by omega
  have h64 : j < 64 := by omega
  rw [BitVec.getLsbD_extractLsb', headInit, BitVec.getLsbD_setWidth, Nat.sub_self, Nat.mul_zero,
    Nat.zero_add, BitVec.getLsbD_append, if_pos h64, tHead, UdpHeadTx.headO, BitVec.getLsbD_append,
    if_pos hj]
  simp [hj, h8, udpParams]

/-- A request that is accepted with the counter at 62 wraps it to zero in the first cycle of its
headers, and only there. -/
theorem marked_iff {r : In} {past js : List In} (h : Requested maskO s past r js)
    (hc : ((machine p maskO).run s past).headCntQ = 62) (i : In) :
    (out maskO ((machine p maskO).run s (past ++ r :: js)) i).phyStartO = true ↔ js = [] := by
  have hN := headN_cases p
  have hlow := h.low 28
  have hcnt : ((machine p maskO).run s past).headCntQ.toNat = 62 := by
    rw [hc]
    rfl
  rw [hcnt] at hlow
  rw [h.header.phyStartO, decide_eq_true_iff, hcnt, ← List.length_eq_zero_iff]
  omega

/-- What the counter has to hold when a request is accepted for its first beat to be marked, and
what the headers have to begin with. -/
def Marks (s : State p) (i : In) : Prop :=
  Accepted s i → s.headCntQ = 62 ∧ p.srcPort = preWord

instance : Decidable (Marks s i) := inferInstanceAs (Decidable (_ → _))

theorem Accepted.requested {past : List In} {r : In}
    (h : Accepted ((machine p maskO).run s past) r) (hone : OneHot bit s)
    (hr : r.phyReadyI = true) : Requested maskO s past r [] := by
  refine ⟨h, ?_, fun m h1 h0 => absurd h1 (Nat.not_le.2 (Nat.lt_succ_of_le h0))⟩
  rw [Mealy.run_append]
  exact h.inHeader (oneHot_run hone maskO past) hr

theorem StartMarked.counter {past : List In} {r : In} (h : StartMarked maskO s is)
    (hone : OneHot bit s) (hr : r.phyReadyI = true) (hsplit : is = past ++ r :: i :: post) :
    Marks ((machine p maskO).run s past) r := by
  intro hacc
  have hreq := hacc.requested hone hr
  have hsplit' : is = past ++ [r] ++ i :: post := by simp [hsplit]
  have hfirst : FirstBeat maskO s (past ++ [r]) := ⟨past, r, rfl, hacc⟩
  have hmark := (h.marks _ i post hsplit').2 hfirst
  have hword := h.preamble _ i post hsplit' hfirst
  constructor
  · have hcnt := (hreq.header.phyStartO i).symm.trans hmark
    rw [decide_eq_true_iff, List.length_nil] at hcnt
    have hlt := ((machine p maskO).run s past).headCntQ.isLt
    rw [← BitVec.toNat_inj]
    change _ = 62
    omega
  · exact (hreq.header.first_word i).symm.trans hword

theorem startMarked_of_counter (hone : OneHot bit s) (hidle : s.fsmHeadQ = false)
    (hr : ∀ i ∈ is, i.phyReadyI = true)
    (h : ∀ past r i post, is = past ++ r :: i :: post →
      Marks ((machine p maskO).run s past) r) : StartMarked maskO s is := by
  have hmarks (past : List In) (r i : In) (js post : List In)
      (hsplit : is = past ++ r :: js ++ i :: post)
      (hacc : Accepted ((machine p maskO).run s past) r) :
      ((machine p maskO).run s past).headCntQ = 62 ∧ p.srcPort = preWord := by
    cases js with
    | nil => exact h past r i post (by simp [hsplit]) hacc
    | cons j js => exact h past r j (js ++ i :: post) (by simp [hsplit]) hacc
  have hready (pre : List In) (i : In) (post : List In) (hsplit : is = pre ++ i :: post) :
      ∀ j ∈ pre, j.phyReadyI = true := by
    intro j hj
    apply hr
    rw [hsplit]
    exact List.mem_append_left _ hj
  constructor
  · intro pre i post hsplit
    constructor
    · intro hmark
      have hboth : (headCntZero ((machine p maskO).run s pre) &&
          ((machine p maskO).run s pre).fsmHeadQ) = true := hmark
      have hhead := (Bool.and_eq_true_iff.1 hboth).2
      obtain ⟨past, r, js, rfl, hreq⟩ := requested hone hidle (hready pre i post hsplit) hhead
      obtain ⟨hc, _⟩ := hmarks past r i js post hsplit hreq.accepted
      have hnil : js = [] := (marked_iff hreq hc i).1 hmark
      exact ⟨past, r, by rw [hnil], hreq.accepted⟩
    · rintro ⟨past, r, rfl, hacc⟩
      obtain ⟨hc, _⟩ := hmarks past r i [] post hsplit hacc
      have hreq := hacc.requested hone (hready _ i post hsplit r (by simp))
      exact (marked_iff hreq hc i).2 rfl
  · rintro pre i post hsplit ⟨past, r, rfl, hacc⟩
    obtain ⟨_, hport⟩ := hmarks past r i [] post hsplit hacc
    have hreq := hacc.requested hone (hready _ i post hsplit r (by simp))
    rw [← hport]
    exact hreq.header.first_word i

/-- In every run of the transmitter, with any requests and cancels, the first beats of the frames
are marked and no others exactly if every request finds the counter at 62. -/
theorem start_marked_iff (p : Params) (maskO : BitVec 2 → BitVec 2) (s₀ : State p) (i₀ : In)
    (is : List In) (hr : ∀ i ∈ is, i.phyReadyI = true) :
    StartMarked maskO (reset s₀ i₀) is ↔
      (machine p maskO).Along Marks (reset s₀ i₀) is.dropLast := by
  have hone := oneHot_reset s₀ i₀
  rw [Mealy.along_dropLast_iff]
  constructor
  · intro h past r i post hsplit
    exact h.counter hone (hr r (by simp [hsplit])) hsplit
  · exact startMarked_of_counter hone rfl hr

def markedParams : Params := { sampleParams with srcPort := 0xaaab }

def requestIn : In := { quietIn with appEarlyVI := true, appPktLenI := 4 }

/-- Requests that are cancelled in idle bring the counter to 62. -/
theorem start_marked_sample : StartMarked lenToMask (reset (p := markedParams) default default)
    (List.replicate 31 { requestIn with appCancelI := true } ++ [requestIn, quietIn]) :=
  (start_marked_iff markedParams lenToMask default default _ (by decide)).2 (by decide +kernel)

/-- The first cycle of the headers after an idle cycle. -/
theorem start_not_marked :
    ¬ StartMarked lenToMask (reset (p := sampleParams) default default)
      [quietIn, requestIn, quietIn] := by
  intro h
  have hacc : Accepted ((machine sampleParams lenToMask).run (reset default default) [quietIn])
      requestIn := by decide +kernel
  have hmarks : Marks ((machine sampleParams lenToMask).run (reset default default) [quietIn])
      requestIn := h.counter (oneHot_reset default default) rfl rfl
  exact absurd (hmarks hacc).1 (by decide +kernel)

/-- Word `k - 1` of the headers is sent, the counter being at `n`. -/
structure Heading (init : BitVec (8 * headN p)) (k n : Nat) (s : State p) : Prop where
  codes : Codes bit s .head
  pos : 1 ≤ k
  cnt : s.headCntQ.toNat = n
  shift : Shifted init (k - 1) s

theorem Heading.word (h : Heading init k n s) (maskO : BitVec 2 → BitVec 2)
    (hk : 2 * k ≤ headN p) (i : In) :
    (out maskO s i).phyDataO = init.extractLsb' (16 * (k - 1)) 16 := by
  have hpos := h.pos
  exact head_word h.codes h.shift (by omega)

theorem Heading.endHeadV (h : Heading init k n s) : endHeadV s = decide (headN p ≤ n) := by
  rw [EthTx.endHeadV, h.cnt]

theorem Heading.next (h : Heading init k n s) (hc : i.appCancelI = false) (hn : n < headN p) :
    Heading init (k + 1) (if i.phyReadyI then n + 2 else 0) (EthTx.next true s i) := by
  have hN := headN_cases p
  have hpos := h.pos
  obtain ⟨hi, hh, _⟩ := codes_iff.1 h.codes
  refine ⟨?_, Nat.le_add_left 1 k, ?_, ?_⟩
  · have hend : EthTx.endHeadV s = false := by
      rw [h.endHeadV]
      exact decide_eq_false (Nat.not_le.2 hn)
    have hnext := codes_next h.codes i
    rwa [Fsm.next, hc, hend] at hnext
  · cases hr : i.phyReadyI with
    | false => simp [EthTx.next, headCntEn, headCntNext, headCntRst, hh, hr]
    | true =>
      have hcnt : (EthTx.next true s i).headCntQ = s.headCntQ + 2 := by
        simp [EthTx.next, headCntEn, headCntNext, headCntRst, headCntAdd, hi, hh, hr]
      rw [hcnt, BitVec.toNat_add, h.cnt]
      change (n + 2) % 64 = n + 2
      omega
  · have hk : k - 1 + 1 = k + 1 - 1 := by omega
    rw [← hk]
    exact h.shift.next hi

theorem Heading.step (h : Heading init k n s) (hc : i.appCancelI = false) :
    (EthTx.next true s i).fsmHeadQ = decide (n < headN p) := by
  have hnext := codes_next h.codes i
  have hbit := hnext .head
  have hfsm : bit (EthTx.next true s i) .head = (EthTx.next true s i).fsmHeadQ := rfl
  rw [← hfsm, hbit, Fsm.next, hc, h.endHeadV]
  by_cases hn : headN p ≤ n
  · have hlt : ¬ n < headN p := Nat.not_lt.2 hn
    simp [hn, hlt]
  · simp [hn, Nat.lt_of_not_le hn]

theorem Heading.run {js : List In} (h : Heading init k n s) (maskO : BitVec 2 → BitVec 2)
    (hn : n ≤ 2 * k) (hc : ∀ j ∈ js, j.appCancelI = false) (hlen : k + js.length ≤ headN p / 2) :
    ∃ m, m ≤ 2 * (k + js.length) ∧
      Heading init (k + js.length) m ((machine p maskO).run s js) := by
  induction js generalizing s k n with
  | nil => exact ⟨n, hn, h⟩
  | cons j js ih =>
    rw [List.length_cons] at hlen
    have hnext := h.next (hc j List.mem_cons_self) (by omega)
    have hle : (if j.phyReadyI then n + 2 else 0) ≤ 2 * (k + 1) := by
      split <;> omega
    obtain ⟨m, hm, hrun⟩ := ih hnext hle (fun i hi => hc i (List.mem_cons_of_mem _ hi)) (by omega)
    rw [List.length_cons, Nat.add_comm js.length 1, ← Nat.add_assoc]
    exact ⟨m, hm, hrun⟩

/-- The headers end in time exactly if the counter has kept up with the words. -/
theorem Heading.leaves_iff {js : List In} (h : Heading init k n s) (maskO : BitVec 2 → BitVec 2)
    (hn : n ≤ 2 * k) (hc : ∀ j ∈ js, j.appCancelI = false) (hne : js ≠ [])
    (hlen : k + js.length = headN p / 2 + 1) :
    ((machine p maskO).run s js).fsmHeadQ = false ↔
      n = 2 * k ∧ ∀ j ∈ js.dropLast, j.phyReadyI = true := by
  have hN := headN_cases p
  induction js generalizing s k n with
  | nil => exact absurd rfl hne
  | cons j js ih =>
    rw [List.length_cons] at hlen
    have hcj := hc j List.mem_cons_self
    by_cases hnil : js = []
    · subst hnil
      rw [List.length_nil] at hlen
      have hstep : ((machine p maskO).run s [j]).fsmHeadQ = decide (n < headN p) := h.step hcj
      rw [hstep, decide_eq_false_iff_not]
      constructor
      · intro hge
        exact ⟨by omega, fun i hi => absurd hi List.not_mem_nil⟩
      · rintro ⟨rfl, _⟩
        omega
    · have hpos := List.length_pos_of_ne_nil hnil
      have hnext := h.next hcj (by omega)
      have hle : (if j.phyReadyI then n + 2 else 0) ≤ 2 * (k + 1) := by
        split <;> omega
      have hrest := ih hnext hle (fun i hi => hc i (List.mem_cons_of_mem _ hi)) hnil (by omega)
      have hready : (if j.phyReadyI then n + 2 else 0) = 2 * (k + 1) ↔
          n = 2 * k ∧ j.phyReadyI = true := by
        cases hr : j.phyReadyI with
        | false => simp
        | true =>
          simp only [if_true, and_true]
          omega
      rw [Mealy.run_cons, List.dropLast_cons_of_ne_nil hnil, List.forall_mem_cons, ← and_assoc,
        ← hready]
      exact hrest

/-- After a request `r` that is accepted in state `s` the cycles `js` send the headers: each word
is sent once, and the header state lasts exactly until all have been sent. -/
structure HeadersExact (maskO : BitVec 2 → BitVec 2) (s : State p) (r : In) (js : List In) :
    Prop where
  stays : ∀ k < headN p / 2,
    ((machine p maskO).run (next true s r) (js.take k)).fsmHeadQ = true
  leaves : ((machine p maskO).run (next true s r) js).fsmHeadQ = false
  words : ((machine p maskO).trace (next true s r) js).map Out.phyDataO =
    headWords (headInit p r)

theorem Accepted.heading {r : In} (h : Accepted s r) (hone : OneHot bit s) (h0 : s.headCntQ = 0) :
    Heading (headInit p r) 1 (if r.phyReadyI then 2 else 0) (next true s r) := by
  obtain ⟨hcodes, hshift⟩ := h.opens hone
  obtain ⟨hi, he, _⟩ := h
  refine ⟨hcodes, Nat.le_refl 1, ?_, hshift⟩
  cases hr : r.phyReadyI <;>
    simp [next, headCntEn, headCntNext, headCntRst, headCntAdd, hi, he, hr, h0]

theorem Heading.exact_iff {r : In} {js : List In}
    (h : Heading (headInit p r) 1 (if r.phyReadyI then 2 else 0) (EthTx.next true s r))
    (hc : ∀ j ∈ js, j.appCancelI = false) (hlen : js.length = headN p / 2) :
    HeadersExact maskO s r js ↔
      r.phyReadyI = true ∧ ∀ j ∈ js.dropLast, j.phyReadyI = true := by
  have hN := headN_cases p
  have hle : (if r.phyReadyI then 2 else 0) ≤ 2 * 1 := by
    split <;> omega
  have hready : (if r.phyReadyI then 2 else 0) = 2 * 1 ↔ r.phyReadyI = true := by
    cases hr : r.phyReadyI <;> simp
  have hne : js ≠ [] := List.ne_nil_of_length_pos (by omega)
  have hleaves := h.leaves_iff maskO hle hc hne (by omega)
  rw [hready] at hleaves
  have hat (k : Nat) (hk : k < headN p / 2) :
      ∃ m, Heading (headInit p r) (1 + k) m
        ((machine p maskO).run (EthTx.next true s r) (js.take k)) := by
    have htake : (js.take k).length = k := List.length_take_of_le (by omega)
    have hct : ∀ j ∈ js.take k, j.appCancelI = false :=
      fun j hj => hc j (List.mem_of_mem_take hj)
    obtain ⟨m, _, hm⟩ := h.run maskO hle hct (by omega)
    rw [htake] at hm
    exact ⟨m, hm⟩
  refine ⟨fun he => hleaves.1 he.leaves, fun hr => ⟨?_, hleaves.2 hr, ?_⟩⟩
  · intro k hk
    obtain ⟨m, hm⟩ := hat k hk
    exact hm.codes.set
  · apply List.ext_getElem?
    intro k
    rw [List.getElem?_map, Mealy.getElem?_trace]
    by_cases hk : k < headN p / 2
    · obtain ⟨m, hm⟩ := hat k hk
      have hlt : k < js.length := by omega
      have hword := hm.word maskO (by omega) js[k]
      rw [Nat.add_sub_cancel_left] at hword
      rw [List.getElem?_eq_getElem hlt, getElem?_headWords _ (by omega), ← hword]
      rfl
    · rw [List.getElem?_eq_none (by omega), List.getElem?_eq_none]
      · rfl
      · rw [length_headWords]
        omega

/-- After any run and an idle cycle without a request, whatever the PHY does: the header state lasts
until all headers are sent and no longer exactly if the PHY is ready with the request and with all
words but the last. -/
theorem headers_exact_iff (p : Params) (maskO : BitVec 2 → BitVec 2) (s₀ : State p) (i₀ : In)
    (past : List In) (q r : In) (js : List In)
    (hidle : ((machine p maskO).run (reset s₀ i₀) past).fsmIdleQ = true)
    (hq : q.appEarlyVI = false)
    (hacc : Accepted ((machine p maskO).run (reset s₀ i₀) (past ++ [q])) r)
    (hc : ∀ j ∈ js, j.appCancelI = false) (hlen : js.length = headN p / 2) :
    HeadersExact maskO ((machine p maskO).run (reset s₀ i₀) (past ++ [q])) r js ↔
      r.phyReadyI = true ∧ ∀ j ∈ js.dropLast, j.phyReadyI = true := by
  have hone := oneHot_run (oneHot_reset s₀ i₀) maskO (past ++ [q])
  have h0 : ((machine p maskO).run (reset s₀ i₀) (past ++ [q])).headCntQ = 0 := by
    rw [Mealy.run_append]
    exact headCntQ_quiet hidle hq
  exact (hacc.heading hone h0).exact_iff hc hlen

theorem headers_exact_sample :
    HeadersExact lenToMask ((machine sampleParams lenToMask).run (reset default default) [quietIn])
      requestIn (List.replicate 27 quietIn) :=
  (headers_exact_iff sampleParams lenToMask default default [] quietIn requestIn _ rfl rfl
    (by decide +kernel) (by decide) rfl).2 (by decide)

/-- The PHY is not ready in the fifth cycle of the headers. -/
theorem headers_not_exact :
    ¬ HeadersExact lenToMask
      ((machine sampleParams lenToMask).run (reset default default) [quietIn]) requestIn
      (List.replicate 4 quietIn ++ { quietIn with phyReadyI := false } ::
        List.replicate 22 quietIn) := by
  have hone := oneHot_run (oneHot_reset (p := sampleParams) default default) lenToMask [quietIn]
  have hacc : Accepted ((machine sampleParams lenToMask).run (reset default default) [quietIn])
      requestIn := by decide +kernel
  rw [(hacc.heading hone rfl).exact_iff (by decide) rfl]
  decide

end LowLatencyEthernet.EthTx
