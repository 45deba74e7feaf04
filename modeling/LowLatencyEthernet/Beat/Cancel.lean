import LowLatencyEthernet.Beat.Delivery

namespace LowLatencyEthernet
set_option autoImplicit true

open Sync

namespace MacRx

theorem packet_open (hopen : ∀ b ∈ bs, b.term = false) :
    packet bs = Ipv4Rx.beats (bs.map Beat.data) 2 := by
  apply List.ext_getElem
  · simp [packet, Ipv4Rx.beats]
  · intro j hj _
    have hj' : j < bs.length := by simpa [packet] using hj
    simp [packet, Ipv4Rx.beats, hopen bs[j] (List.getElem_mem hj')]

def Invalid (s : State) : Prop :=
  s.fsmInvalidQ = true ∧ s.fsmHeadQ = false ∧ s.fsmDataQ = false

theorem invalid_of_cancel (hb : beat i = some b) (hc : b.cancel = true) :
    Invalid (next p true s i) := by
  obtain ⟨hv, hca, _⟩ := beat_eq_some.1 hb
  rw [hc] at hca
  simp [Invalid, next, fsmInvalidNext, fsmHeadNext, fsmDataNext, hv, hca]

end MacRx

namespace Ipv4Rx

def Idle (s : State) : Prop := s.fsmIdleQ = true ∧ s.fsmHeadQ = false ∧ s.fsmDataQ = false

/-- A packet that the beat leaves no trace of when it is cancelled: none, or one that ends. -/
def Reader.Ends (r : Reader) (b : Beat) : Prop :=
  match r.phase with
  | .idle => b.start = false
  | .head _ => False
  | .data cnt _ _ _ => cnt ≥ r.totLen

theorem Sim.idle_iff (h : Sim s r) : Idle s ↔ r.phase = .idle := by
  have hr := h.reads
  obtain ⟨ph, tl, hc⟩ := r
  cases ph with
  | idle => simp [Idle, hr.1, hr.2.1, hr.2.2]
  | head => simp [Idle, hr.2.1]
  | data => simp [Idle, hr.2.1]

theorem Sim.cancel (h : Sim s r) (hb : beat i = some b) (hc : i.cancelI = true) :
    Idle (next p true s i) ↔ r.Ends b := by
  obtain ⟨hv, hst, _⟩ := beat_eq_some.1 hb
  obtain ⟨ph, tl, hcs⟩ := r
  cases ph with
  | idle =>
    obtain ⟨hi, hh, hd⟩ := h.reads
    simp [Idle, Reader.Ends, next, fsmIdleNext, fsmHeadNext, fsmDataNext, hv, hi, hh, hd, hc, hst]
  | head h' =>
    obtain ⟨_, hi, hh, hd, _⟩ := h.reads
    cases he : endHeadV s i <;>
      simp [Idle, Reader.Ends, next, fsmIdleNext, fsmHeadNext, fsmDataNext, hv, hi, hh, hd, hc, he]
  | data cnt e d f =>
    obtain ⟨htl, hi, hh, hd, _, hcn, _⟩ := h.reads
    simp [Idle, Reader.Ends, next, fsmIdleNext, fsmHeadNext, fsmDataNext, endDataLiteV, hv, hi, hh,
      hd, hc, hcn, htl]

theorem Consistent.take (h : Consistent ws n) (hj : 2 ≤ j) : Consistent (ws.take j) n := by
  obtain ⟨h1, h2, h3⟩ := h
  refine ⟨?_, ?_, ?_⟩
  · rwa [ihl_take ws (by omega)]
  · rwa [ihl_take ws (by omega), totLen_take ws hj]
  · rwa [totLen_take ws hj]

/-- Along a packet only the last word and what follows it can be cancelled without a trace. -/
theorem readerAt_ends (hT : 2 ≤ ws.length → 2 ≤ (totLen ws).toNat)
    (hs : b.start = decide (ws = [])) :
    (readerAt p tl hc ws).Ends b ↔ packetWords ws ≤ ws.length + 1 := by
  have h2 := two_le_headWords ws
  have hNM := headWords_lt_packetWords ws
  by_cases hne : ws = []
  · subst hne
    have hlt : ¬ packetWords [] ≤ 1 := by omega
    simp [readerAt, Reader.Ends, hs, hlt]
  by_cases hN : ws.length < headWords ws
  · have hlt : ¬ packetWords ws ≤ ws.length + 1 := by omega
    rw [readerAt_head hne hN]
    simp [Reader.Ends, hlt]
  by_cases hM : ws.length < packetWords ws
  · have hlen := cnt_ge_totLen (hT (by omega)) hM
    rw [readerAt_data (Nat.not_lt.1 hN) hM]
    change BitVec.ofNat 16 (2 * ws.length) ≥ totLen ws - 2 ↔ _
    rw [hlen, packetWords]
    omega
  · have hle : packetWords ws ≤ ws.length + 1 := by omega
    rw [readerAt_idle (Nat.not_lt.1 hM)]
    simp [Reader.Ends, hs, hne, hle]

end Ipv4Rx

namespace UdpRx

def Idle (s : State) : Prop := s.fsmIdleQ = true ∧ s.fsmHeadQ = false ∧ s.fsmDataQ = false

theorem Sim.idle_iff (h : Sim s ph) : Idle s ↔ ph = .idle := by
  cases ph with
  | idle => simp [Idle, h.1, h.2.1, h.2.2]
  | head => simp [Idle, h.1]
  | data => simp [Idle, h.1]

theorem idle_of_cancel (hb : beat i = some b) (hc : i.cancelI = true) :
    Idle (next p true s i) := by
  obtain ⟨hv, _⟩ := beat_eq_some.1 hb
  simp [Idle, next, fsmIdleNext, fsmHeadNext, fsmDataNext, hv, hc]

end UdpRx

namespace EthRx

/-- Each FSM has its idle bit set and no other. -/
def AllIdle (s : State) : Prop :=
  MacRx.Invalid s.mMacRx ∧ Ipv4Rx.Idle s.mIpv4Rx ∧ UdpRx.Idle s.mUdpRx

theorem AllIdle.sim (h : AllIdle s) : Sim p s (.invalid, layers s) := by
  obtain ⟨hm, hi, hu⟩ := h
  exact ⟨hm, ⟨hi, rfl, rfl⟩, hu, nofun, nofun, nofun⟩

theorem Sim.cancel_kept (h : Sim p s (ph, r, up)) (hb : beat i = some b) (hc : b.cancel = true)
    (ho : ph.out b = none) :
    AllIdle (next p true s i) ↔ r.phase = .idle ∧ up = .idle := by
  have hip : Ipv4Rx.beat (ipIn s i) = none := (h.mac.out_eq hb).trans ho
  have hudp : UdpRx.beat (udpIn s i) = none := Ipv4Rx.stall_out hip
  have hmac : MacRx.Invalid (next p true s i).mMacRx := MacRx.invalid_of_cancel hb hc
  constructor
  · rintro ⟨_, hi, hu⟩
    exact ⟨(h.ip.stall hip).idle_iff.1 hi, (h.udp.stall hudp).idle_iff.1 hu⟩
  · rintro ⟨hi, hu⟩
    exact ⟨hmac, (h.ip.stall hip).idle_iff.2 hi, (h.udp.stall hudp).idle_iff.2 hu⟩

theorem Sim.cancel_passed (h : Sim p s (ph, r, up)) (hb : beat i = some b) (hc : b.cancel = true)
    (ho : ph.out b = some g) :
    AllIdle (next p true s i) ↔ r.Ends g ∧ (r.out g = none → up = .idle) := by
  have hip : Ipv4Rx.beat (ipIn s i) = some g := (h.mac.out_eq hb).trans ho
  have hcan : i.phyCancelI = true := (MacRx.beat_eq_some.1 hb).2.1.trans hc
  have hout : UdpRx.beat (udpIn s i) = r.out g := h.ip.reads.out_eq hip
  have hmac : MacRx.Invalid (next p true s i).mMacRx := MacRx.invalid_of_cancel hb hc
  have hends := h.ip.cancel (p := ipParams p) hip hcan
  have hudp : UdpRx.Idle (next p true s i).mUdpRx ↔ (r.out g = none → up = .idle) := by
    cases hu : r.out g with
    | none =>
      rw [hu] at hout
      have hidle : UdpRx.Idle (next p true s i).mUdpRx ↔ up = .idle :=
        (h.udp.stall hout).idle_iff
      simp [hidle]
    | some u =>
      rw [hu] at hout
      have hidle : UdpRx.Idle (next p true s i).mUdpRx := UdpRx.idle_of_cancel hout hcan
      simp [hidle]
  rw [← hends, ← hudp]
  exact and_iff_right hmac

/-- A conforming frame up to a beat that is cancelled, in the cycle `last`. What the bus holds in
that cycle does not matter. -/
structure Cancelled (p : Params) where
  datagram : Datagram p
  cut : Cut beat MacRx.Idle (MacRx.Carries · datagram.bytes)
  last : In
  inside : cut.pos < cut.frame.length
  lastValid : last.macValidI = true
  lastCancel : last.phyCancelI = true
  lastStart : last.macStartI = decide (cut.pos = 0)

namespace Cancelled

variable (c : Cancelled p)

def cycles : List In := c.cut.cycles ++ [c.last]

def pos : Nat := c.cut.pos

def headLen : Nat := MacRx.headLen (macParams p) c.cut.frame

def packetLen : Nat := ((Ipv4Rx.totLen (words p c.cut.frame)).toNat + 1) / 2

def lastBeat : MacRx.Beat :=
  ⟨true, decide (c.pos = 0), c.last.macDataI, c.last.macTermI, c.last.macLenI⟩

theorem beat_last : beat c.last = some c.lastBeat := by
  rw [lastBeat, pos, ← c.lastCancel, ← c.lastStart]
  exact if_pos c.lastValid

theorem run_cycles (s : State) : (machine p).run s c.cycles =
    next p true ((machine p).run s c.cut.cycles) c.last := by
  rw [cycles, Mealy.run_append]
  rfl

theorem consistent : Consistent p c.cut.frame := c.datagram.consistent c.cut.whole

theorem before_cancel (hs : Sim p s (.invalid, y)) :
    Sim p ((machine p).run s c.cut.cycles) (MacRx.phaseAt (macParams p) c.cut.frame c.pos,
      (stack p).run y (MacRx.packet ((c.cut.frame.take c.pos).drop c.headLen))) := by
  have hf := c.consistent.wellFormed
  obtain ⟨_, hi, _⟩ := c.datagram.layout c.cut.whole
  have hrun := (follows p).cut (rests p) hs rfl
    (c.cut.weaken fun _ hc => (c.datagram.consistent hc).wellFormed)
  rw [transducer, Transducer.cascade_run] at hrun
  rw [Cut.weaken, hf.frame.run_take c.inside,
    hf.frame.emit_take hi] at hrun
  exact hrun

theorem term_take : ∀ b ∈ (c.cut.frame.take c.pos).drop c.headLen, b.term = false := by
  intro b hb
  obtain ⟨k, hk⟩ := List.mem_iff_getElem?.1 (List.mem_of_mem_drop hb)
  have hkp : k < c.pos := by
    have hlt := (List.getElem?_eq_some_iff.1 hk).1
    rw [List.length_take] at hlt
    omega
  rw [List.getElem?_take_of_lt hkp] at hk
  rw [Bool.eq_false_iff]
  intro ht
  have hlast := (c.cut.whole.term k b hk).1 ht
  have hlt : c.pos < c.cut.frame.length := c.inside
  omega

theorem words_take : ((c.cut.frame.take c.pos).drop c.headLen).map MacRx.Beat.data =
    (words p c.cut.frame).take (c.pos - c.headLen) := by
  rw [List.drop_take, List.map_take, words]
  rfl

theorem length_words_take (hj : c.pos = c.headLen + j) :
    ((words p c.cut.frame).take j).length = j := by
  have hlt : c.pos < c.cut.frame.length := c.inside
  rw [List.length_take, words, List.length_map, MacRx.payload, List.length_drop]
  change min j (c.cut.frame.length - c.headLen) = j
  omega

theorem corrupt_eq (hc : BitVec 16) :
    Ipv4Rx.corrupt hc (Ipv4Rx.header (words p c.cut.frame)) = false := by
  obtain ⟨_, hi, x, hx⟩ := c.datagram.layout c.cut.whole
  have hNM := Ipv4Rx.headWords_lt_packetWords (words p c.cut.frame)
  have hfit := fits_words c.consistent hi
  rw [Ipv4Rx.corrupt_eq (c.consistent.lengths hi) (by omega), hx]
  exact c.datagram.badChecksum_eq x

end Cancelled

theorem udp_idle (hcons : Ipv4Rx.Consistent ws n) (hfit : Ipv4Rx.packetWords ws ≤ ws.length)
    (hc : Ipv4Rx.corrupt cs (Ipv4Rx.header ws) = false) :
    (UdpRx.transducer (udpParams p)).run .idle (Ipv4Rx.passed (ipParams p) cs ws) = .idle := by
  cases hfil : Ipv4Rx.filtered (ipParams p) (Ipv4Rx.header ws) with
  | true =>
    rw [passed_filtered hfil]
    rfl
  | false =>
    rw [passed_clear hfil hc]
    exact (datagramBeats_run (packetWords_ge hcons) hfit).1

theorem udp_idle_or (hcons : Ipv4Rx.Consistent ws n)
    (hM : Ipv4Rx.packetWords ws ≤ ws.length + 1)
    (hc : Ipv4Rx.corrupt cs (Ipv4Rx.header ws) = false)
    (ho : (Ipv4Rx.readerAt (ipParams p) tl cs ws).out b = none) :
    (UdpRx.transducer (udpParams p)).run .idle (Ipv4Rx.passed (ipParams p) cs ws) = .idle := by
  have hNM := Ipv4Rx.headWords_lt_packetWords ws
  by_cases hlast : Ipv4Rx.packetWords ws ≤ ws.length
  · exact udp_idle hcons hlast hc
  · rw [Ipv4Rx.out_readerAt_data (by omega) (by omega) (totLen_ge hcons), hc] at ho
    cases hfil : Ipv4Rx.filtered (ipParams p) (Ipv4Rx.header ws) with
    | true =>
      rw [passed_filtered hfil]
      rfl
    | false => simp [hfil] at ho

theorem Cancelled.early (c : Cancelled p)
    (hs : Sim p s (.invalid, (⟨.idle, tl, hc⟩, .idle))) (hpos : c.pos < c.headLen) :
    AllIdle ((machine p).run s c.cycles) := by
  have hbefore := c.before_cancel hs
  have hnil : (c.cut.frame.take c.pos).drop c.headLen = [] := by
    rw [List.drop_eq_nil_iff, List.length_take]
    omega
  have hout := MacRx.out_phaseAt (macParams p) c.cut.frame c.pos c.lastBeat
  rw [if_neg (by intro h; exact absurd h.1 (Nat.not_le.2 hpos))] at hout
  rw [hnil] at hbefore
  rw [c.run_cycles, hbefore.cancel_kept c.beat_last rfl hout]
  exact ⟨rfl, rfl⟩

theorem Cancelled.late_iff (c : Cancelled p)
    (hs : Sim p s (.invalid, (⟨.idle, tl, hc⟩, .idle))) (hpos : c.pos = c.headLen + j) :
    AllIdle ((machine p).run s c.cycles) ↔ c.packetLen ≤ j + 1 := by
  obtain ⟨_, hi, _⟩ := c.datagram.layout c.cut.whole
  have hcons := c.consistent.lengths hi
  have hM : c.packetLen = Ipv4Rx.packetWords (words p c.cut.frame) := hcons.packetWords_eq.symm
  have hlen := c.length_words_take hpos
  have hT (h2 : 2 ≤ ((words p c.cut.frame).take j).length) :
      2 ≤ (Ipv4Rx.totLen ((words p c.cut.frame).take j)).toNat := by
    rw [Ipv4Rx.totLen_take _ (by omega)]
    exact totLen_ge hcons
  have hbefore := c.before_cancel hs
  rw [MacRx.packet_open c.term_take, c.words_take, hpos, Nat.add_sub_cancel_left, stack,
    Transducer.cascade_run, Ipv4Rx.run_beats_full hT, Ipv4Rx.emit_beats hT] at hbefore
  have hout := MacRx.out_phaseAt (macParams p) c.cut.frame c.pos c.lastBeat
  have hge : c.headLen ≤ c.pos := by omega
  rw [if_pos ⟨hge, hi⟩, hpos] at hout
  have hstart : decide (c.headLen + j = MacRx.headLen (macParams p) c.cut.frame) =
      decide ((words p c.cut.frame).take j = []) := by
    rw [decide_eq_decide, ← List.length_eq_zero_iff, hlen, Cancelled.headLen]
    omega
  rw [c.run_cycles, hbefore.cancel_passed c.beat_last rfl hout,
    Ipv4Rx.readerAt_ends hT hstart, hlen, Ipv4Rx.packetWords_take_le, ← hM]
  refine and_iff_left_of_imp fun hle ho => ?_
  have hNM := Ipv4Rx.headWords_lt_packetWords (words p c.cut.frame)
  have hN2 := Ipv4Rx.two_le_headWords (words p c.cut.frame)
  have h2 : 2 ≤ j := by omega
  apply udp_idle_or (hcons.take h2) _ _ ho
  · rw [Ipv4Rx.packetWords_take _ h2, hlen, ← hM]
    exact hle
  · rw [Ipv4Rx.header_take _ (by omega)]
    exact c.corrupt_eq hc

theorem cancel_allIdle (hs : Sim p s (.invalid, (⟨.idle, tl, hc⟩, .idle))) (c : Cancelled p) :
    AllIdle ((machine p).run s c.cycles) ↔
      c.pos < c.headLen ∨ c.headLen + c.packetLen ≤ c.pos + 1 := by
  rcases Nat.lt_or_ge c.pos c.headLen with hpos | hpos
  · exact iff_of_true (c.early hs hpos) (.inl hpos)
  · obtain ⟨j, hj⟩ := Nat.exists_eq_add_of_le hpos
    rw [c.late_iff hs hj]
    omega

/-- After the cancelled beat every FSM is exactly in idle, and conforming frames are delivered as
right after reset. -/
def Recovers (p : Params) (s₀ : State) (i₀ : In) (past : List (ConformingReception p))
    (c : Cancelled p) : Prop :=
  let s := (machine p).run (reset p s₀ i₀) (Reception.allCycles past ++ c.cycles)
  AllIdle s ∧ ∀ (future : List (ConformingReception p)) (r : ConformingReception p),
    delivered (machine p) port ((machine p).run s (Reception.allCycles future)) r.cycles =
      delivered (machine p) port (reset p s₀ i₀) r.cycles

theorem idle_after (p : Params) (s₀ : State) (i₀ : In) (past : List (ConformingReception p)) :
    ∃ tl hc, Sim p ((machine p).run (reset p s₀ i₀) (Reception.allCycles past))
      (.invalid, (⟨.idle, tl, hc⟩, .idle)) := by
  have hw : ∀ f, Conforming p f → MacRx.WellFormed (macParams p) f :=
    fun f hf => hf.consistent.wellFormed
  have hs := after_frames (sim_reset p s₀ i₀) (past.map (Reception.weaken hw))
  rw [Reception.allCycles_weaken, List.map_map] at hs
  have hfs := frames_conforming past
  have hg := gate_run (fun f hf => (hfs f hf).consistent) (gateRel_layers (reset p s₀ i₀))
  rw [gate_conforming hfs] at hg
  generalize hy : layersAfter p (layers (reset p s₀ i₀)) (past.map Reception.frame) = y at hg
  obtain ⟨⟨ph, tl, hc⟩, up⟩ := y
  obtain ⟨rfl, rfl⟩ : ph = .idle ∧ up = .idle := hg
  exact ⟨tl, hc, hy ▸ hs⟩

/-- The receive path recovers from a cancel exactly before the packet, on its last beat and after
it. -/
theorem recovers_iff (p : Params) (s₀ : State) (i₀ : In) (past : List (ConformingReception p))
    (c : Cancelled p) :
    Recovers p s₀ i₀ past c ↔ c.pos < c.headLen ∨ c.headLen + c.packetLen ≤ c.pos + 1 := by
  obtain ⟨tl, hc, hs⟩ := idle_after p s₀ i₀ past
  rw [Recovers, Mealy.run_append, ← cancel_allIdle hs c]
  constructor
  · intro h
    exact h.1
  · intro h
    refine ⟨h, fun future r => ?_⟩
    have hcons : ∀ f, Conforming p f → Consistent p f := fun f hf => hf.consistent
    have hlater := delivered_free (h.sim (p := p)) future (r.weaken hcons)
    have hreset := delivered_free (sim_reset p s₀ i₀) [] (r.weaken hcons)
    exact hlater.trans hreset.symm

def sampleDatagram : Datagram sampleParams where
  preamble := [0x55, 0x55, 0x55, 0x55, 0x55, 0x55, 0x55, 0xd5]
  macDst := [2, 1, 4, 3, 6, 5]
  macSrc := [18, 17, 20, 19, 22, 21]
  tci := none
  tos := 0
  ident := 0
  ttl := 64
  ipSrc := 0x0a000001
  ipDst := 0x0a000002
  options := []
  udpLen := 9
  udpChecksum := 0
  payload := [0x41]
  padding := [0]
  fcs := [0, 0, 0, 0]
  preamble_length := rfl
  macDst_length := rfl
  macSrc_length := rfl
  tci_vlan := nofun
  options_even := rfl
  options_length := Nat.zero_le _
  payload_ne := List.cons_ne_nil _ _
  fcs_length := rfl
  size := by decide

def sampleCancelled : Cancelled sampleParams where
  datagram := sampleDatagram
  cut :=
    { cycles := (sampleDatagram.frame.take 11).map feed
      gap := []
      frame := sampleDatagram.frame
      pos := 11
      idle := List.forall_mem_nil _
      whole := sampleDatagram.carries_frame
      carries := by
        rw [List.filterMap_map, List.nil_append]
        exact List.filterMap_some }
  last := ⟨true, true, 0, false, false, 2⟩
  inside := by
    rw [sampleDatagram.carries_frame.length_eq, Datagram.length_bytes]
    decide
  lastValid := rfl
  lastCancel := rfl
  lastStart := rfl

theorem recovers_fails : ¬ Recovers sampleParams default default [] sampleCancelled := by
  intro h
  have hs : Sim sampleParams (reset sampleParams default default)
    (.invalid, (⟨.idle, _, _⟩, .idle)) := sim_reset sampleParams default default
  obtain ⟨hl, _, x, hx⟩ := sampleDatagram.layout sampleCancelled.cut.whole
  have hhead : sampleCancelled.headLen = 11 := hl
  have hlen : sampleCancelled.packetLen = 15 := by
    rw [Cancelled.packetLen, hx, Datagram.totLen_packetWords, Datagram.toNat_totLen]
    rfl
  have hpos := (cancel_allIdle hs sampleCancelled).1 h.1
  rw [hhead, hlen] at hpos
  exact absurd hpos (by decide)

end EthRx

end LowLatencyEthernet
