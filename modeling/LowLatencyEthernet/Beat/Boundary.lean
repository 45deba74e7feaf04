import LowLatencyEthernet.Beat.Isolation
import LowLatencyEthernet.Beat.Cancel

namespace LowLatencyEthernet
set_option autoImplicit true

open Sync

namespace Ipv4Rx

/-- All words that the lengths in the header count have come. -/
def Complete (ws : List Word) : Prop := packetWords ws ≤ ws.length

theorem readerAt_open (hT : 2 ≤ ws.length → 2 ≤ (totLen ws).toNat)
    (hM : ws.length + 1 < packetWords ws) (hs : b.start = decide (ws = [])) :
    ((readerAt p tl hc ws).next p b).phase ≠ .idle := by
  have h2 := two_le_headWords ws
  by_cases hne : ws = []
  · subst hne
    simp [readerAt, Reader.next, hs]
  by_cases hN : ws.length < headWords ws
  · rw [readerAt_head hne hN]
    cases he : (headOf p ws).ends b <;> simp [Reader.next, he]
  · have hM' : ws.length < packetWords ws := by omega
    have hlt : ¬ BitVec.ofNat 16 (2 * ws.length) ≥ totLen ws - 2 := by
      rw [cnt_ge_totLen (hT (by omega)) hM']
      rw [packetWords] at hM
      omega
    rw [readerAt_data (Nat.not_lt.1 hN) hM']
    simp only [Reader.next, if_neg hlt, ne_eq, reduceCtorEq, not_false_eq_true]

theorem run_beats_idle (hT : 2 ≤ ws.length → 2 ≤ (totLen ws).toNat) (hne : ws ≠ [])
    (l : BitVec 2) :
    ((transducer p).run ⟨.idle, tl, hc⟩ (beats ws l)).phase = .idle ↔ Complete ws := by
  have hNM := headWords_lt_packetWords ws
  have h2 := two_le_headWords ws
  constructor
  · intro hi
    by_contra hM
    have hM : ws.length < packetWords ws := Nat.not_le.1 hM
    obtain ⟨us, w, rfl⟩ : ∃ us w, ws = us ++ [w] :=
      ⟨ws.dropLast, ws.getLast hne, (List.dropLast_append_getLast hne).symm⟩
    rw [List.length_append, List.length_singleton] at hT hM
    have hT' (h : 2 ≤ us.length) : 2 ≤ (totLen us).toNat := by
      rw [← totLen_snoc h w]
      exact hT (by omega)
    have hM' : us.length + 1 < packetWords us := by
      by_cases h : 2 ≤ us.length
      · rwa [packetWords_snoc h] at hM
      · have h1 := headWords_lt_packetWords us
        have h2 := two_le_headWords us
        omega
    rw [beats_snoc, Mealy.run_append, run_beats_full hT'] at hi
    exact readerAt_open hT' hM' rfl hi
  · intro hM
    have hM : packetWords ws ≤ ws.length := hM
    rw [run_beats (hT (by omega)) hM]

end Ipv4Rx

namespace EthRx

/-- The receive path, seen at the outputs of the IPv4 layer. -/
def ipView (p : Params) : Mealy State In Ipv4Rx.Out := ⟨next p true, ipOut⟩

def ipTransducer (p : Params) :
    Transducer (MacRx.Phase × Ipv4Rx.Reader) MacRx.Beat UdpRx.Beat :=
  (MacRx.transducer (macParams p)).cascade (Ipv4Rx.transducer (ipParams p))

def IpSim (p : Params) (s : State) (x : MacRx.Phase × Ipv4Rx.Reader) : Prop :=
  ∃ up, Sim p s (x.1, x.2, up)

theorem ip_follows (p : Params) :
    Follows (ipView p) (ipTransducer p) beat Ipv4Rx.port (fun x b => BeatOk x.1 b) (IpSim p) where
  stall := by
    rintro s x i ⟨up, h⟩ hb
    exact ⟨up, h.stall hb⟩
  stall_out := by
    rintro s x i ⟨up, h⟩ hb
    exact Ipv4Rx.stall_out (MacRx.Sim.stall_out hb)
  step := by
    rintro s ⟨ph, r⟩ i b ⟨up, h⟩ hb hok
    have hstep := (h.step hb hok).1
    change Sim p _ (_, (stack p).run (r, up) (ph.out b).toList) at hstep
    rw [stack, Transducer.cascade_run] at hstep
    exact ⟨_, hstep⟩
  step_out := by
    rintro s ⟨ph, r⟩ i b ⟨up, h⟩ hb hok
    have hg : Ipv4Rx.beat (ipIn s i) = ph.out b := h.mac.out_eq hb
    change _ = (ph.out b).bind r.out
    cases ho : ph.out b with
    | none => exact Ipv4Rx.stall_out (hg.trans ho)
    | some g => exact h.ip.reads.out_eq (hg.trans ho)

theorem ip_rests (p : Params) :
    Rests (ipTransducer p) (fun x b => BeatOk x.1 b) MacRx.Idle
      (MacRx.WellFormed (macParams p)) (·.1 = .invalid) :=
  rests_cascade (macParams p) (Ipv4Rx.transducer (ipParams p))

/-- A well-formed IPv4 frame. The total length, when the frame carries it, is at least two. -/
structure Ipv4Frame (p : Params) (f : List MacRx.Beat) : Prop where
  wellFormed : MacRx.WellFormed (macParams p) f
  isIpv4 : MacRx.isIpv4 (macParams p) f = true
  totLen : 2 ≤ (words p f).length → 2 ≤ (Ipv4Rx.totLen (words p f)).toNat

/-- The frame carries the whole packet. -/
structure Fitting (p : Params) (f : List MacRx.Beat) : Prop extends Ipv4Frame p f where
  complete : Ipv4Rx.Complete (words p f)

/-- The total length counts a UDP header and a byte after it. -/
def HoldsDatagram (p : Params) (f : List MacRx.Beat) : Prop :=
  Ipv4Rx.headWords (words p f) + 5 ≤ Ipv4Rx.packetWords (words p f)

theorem Ipv4Frame.words_ne (hf : Ipv4Frame p f) : words p f ≠ [] := by
  have hlen := hf.wellFormed.frame.payload hf.wellFormed.uncancelled
  apply List.ne_nil_of_length_pos
  rw [words, List.length_map, MacRx.payload, List.length_drop]
  omega

theorem Fitting.totLen_ge (hf : Fitting p f) : 2 ≤ (Ipv4Rx.totLen (words p f)).toNat := by
  have hc : Ipv4Rx.packetWords (words p f) ≤ (words p f).length := hf.complete
  have hNM := Ipv4Rx.headWords_lt_packetWords (words p f)
  have h2 := Ipv4Rx.two_le_headWords (words p f)
  exact hf.totLen (by omega)

theorem Ipv4Frame.run_idle (hf : Ipv4Frame p f) (hr : r.phase = .idle) :
    ((ipTransducer p).run (.invalid, r) f).2.phase = .idle ↔ Ipv4Rx.Complete (words p f) := by
  obtain ⟨ph, tl, hc⟩ := r
  obtain rfl : ph = .idle := hr
  rw [ipTransducer, frame_run hf.wellFormed, handed_words hf.wellFormed hf.isIpv4]
  exact Ipv4Rx.run_beats_idle hf.totLen hf.words_ne _

theorem Ipv4Frame.emit (hf : Ipv4Frame p f) (hr : r.phase = .idle) :
    (ipTransducer p).emit (.invalid, r) f = Ipv4Rx.passed (ipParams p) r.headCs (words p f) := by
  obtain ⟨ph, tl, hc⟩ := r
  obtain rfl : ph = .idle := hr
  rw [ipTransducer, frame_emit hf.wellFormed, handed_words hf.wellFormed hf.isIpv4]
  exact Ipv4Rx.emit_beats hf.totLen _

theorem ipView_run (p : Params) (s : State) (is : List In) :
    (ipView p).run s is = (machine p).run s is := by
  induction is generalizing s with
  | nil => rfl
  | cons i is ih => exact ih _

theorem ip_idle {fs : List (List MacRx.Beat)} (hfs : ∀ f ∈ fs, Fitting p f)
    (hr : r.phase = .idle) :
    ∃ r', (ipTransducer p).run (.invalid, r) fs.flatten = (.invalid, r') ∧ r'.phase = .idle := by
  induction fs generalizing r with
  | nil => exact ⟨r, rfl, hr⟩
  | cons f fs ih =>
    have hf := hfs f List.mem_cons_self
    have hidle := (hf.run_idle hr).2 hf.complete
    have hmac : (ipTransducer p).run (.invalid, r) f = (.invalid, _) := frame_run hf.wellFormed
    rw [hmac] at hidle
    rw [List.flatten_cons, Mealy.run_append, hmac]
    exact ih (fun g hg => hfs g (List.mem_cons_of_mem _ hg)) hidle

abbrev Ipv4Reception (p : Params) := Sync.Reception beat MacRx.Idle (Ipv4Frame p)

abbrev FittingReception (p : Params) := Sync.Reception beat MacRx.Idle (Fitting p)

theorem ip_after (p : Params) (s₀ : State) (i₀ : In) (past : List (FittingReception p)) :
    ∃ r, IpSim p ((machine p).run (reset p s₀ i₀) (Reception.allCycles past)) (.invalid, r) ∧
      r.phase = .idle := by
  have hs : IpSim p (reset p s₀ i₀) (.invalid, (layers (reset p s₀ i₀)).1) :=
    ⟨.idle, sim_reset p s₀ i₀⟩
  have hw : ∀ f, Fitting p f → MacRx.WellFormed (macParams p) f := fun f hf => hf.wellFormed
  obtain ⟨hsim, _⟩ := (ip_follows p).after (ip_rests p) hs rfl (past.map (Reception.weaken hw))
  have hfs : ∀ f ∈ past.map Reception.frame, Fitting p f := by
    intro f hf
    obtain ⟨r, _, rfl⟩ := List.mem_map.1 hf
    exact r.whole
  obtain ⟨r, hrun, hidle⟩ := ip_idle hfs (r := (layers (reset p s₀ i₀)).1) rfl
  rw [Reception.allCycles_weaken, ipView_run, List.flatMap_def, List.map_map] at hsim
  change IpSim p _ ((ipTransducer p).run _ (past.map Reception.frame).flatten) at hsim
  rw [hrun] at hsim
  exact ⟨r, hsim, hidle⟩

theorem ip_cut (hs : IpSim p s (.invalid, r)) (c : Cut beat MacRx.Idle (Ipv4Frame p))
    (hpos : c.pos ≤ MacRx.headLen (macParams p) c.frame) :
    ∃ ph, IpSim p ((machine p).run s c.cycles) (ph, r) := by
  have hrun := (ip_follows p).cut (ip_rests p) hs rfl (c.weaken fun _ hf => hf.wellFormed)
  have hnil : (c.frame.take c.pos).drop (MacRx.headLen (macParams p) c.frame) = [] := by
    rw [List.drop_eq_nil_iff, List.length_take]
    omega
  rw [ipView_run, ipTransducer, Transducer.cascade_run] at hrun
  rw [Cut.weaken, c.whole.wellFormed.frame.emit_take c.whole.isIpv4, hnil] at hrun
  exact ⟨_, hrun⟩

theorem ip_idle_iff (hs : IpSim p s (.invalid, rd)) (hrd : rd.phase = .idle)
    (r : Ipv4Reception p) (c : Cut beat MacRx.Idle (Ipv4Frame p))
    (hpos : c.pos ≤ MacRx.headLen (macParams p) c.frame) :
    Ipv4Rx.Idle ((machine p).run s (r.cycles ++ c.cycles)).mIpv4Rx ↔
      Ipv4Rx.Complete (words p r.frame) := by
  obtain ⟨hafter, _, _⟩ := (ip_follows p).reception (ip_rests p) hs rfl
    (r.weaken fun _ hf => hf.wellFormed)
  have hmac : (ipTransducer p).run (.invalid, rd) r.frame = (.invalid, _) :=
    frame_run r.whole.wellFormed
  have hidle := r.whole.run_idle hrd
  rw [hmac] at hidle
  change IpSim p _ ((ipTransducer p).run (.invalid, rd) r.frame) at hafter
  rw [ipView_run, hmac] at hafter
  obtain ⟨ph, up, hcut⟩ := ip_cut hafter c hpos
  rw [Mealy.run_append, ← hidle]
  exact hcut.ip.idle_iff

theorem gate_fitting (hfs : ∀ f ∈ fs, Fitting p f ∧ HoldsDatagram p f) (hy : GateRel g y) :
    ∃ g', GateRel g' (layersAfter p y fs) := by
  induction fs generalizing g y with
  | nil => exact ⟨g, hy⟩
  | cons f fs ih =>
    obtain ⟨hf, h5⟩ := hfs f List.mem_cons_self
    obtain ⟨hstep, _⟩ :=
      gate_step_ipv4 hf.wellFormed hf.isIpv4 hf.totLen_ge hf.complete h5 hy
    have hrest := ih (fun h hm => hfs h (List.mem_cons_of_mem _ hm)) hstep
    rwa [layersAfter, List.flatMap_cons, Mealy.run_append]

theorem out_eq_or (g : Gate) (f : List MacRx.Beat) :
    gate.out g (verdictOf p e f) = [] ∨ gate.out g (verdictOf p e f) = delivery (words p f) := by
  rw [verdictOf]
  split
  · split
    · exact .inl (by cases g <;> rfl)
    · split <;> cases g <;> simp [gate, Gate.out]
  · exact .inl (by cases g <;> rfl)

/-- After frames that carry their packets, an IPv4 frame is read from its own first byte. The IPv4
layer is then in idle up to the packet of the next frame exactly if this frame carries its packet
too, and the application gets the payload of this frame or nothing, if the total lengths count a
UDP header and a byte. -/
theorem packets_apart (p : Params) (s₀ : State) (i₀ : In) (past : List (FittingReception p))
    (r : Ipv4Reception p) :
    let s := (machine p).run (reset p s₀ i₀) (Reception.allCycles past)
    delivered (ipView p) Ipv4Rx.port s r.cycles =
        Ipv4Rx.passed (ipParams p) s.mIpv4Rx.headChecksumQ (words p r.frame) ∧
      (∀ c : Cut beat MacRx.Idle (Ipv4Frame p), c.pos ≤ MacRx.headLen (macParams p) c.frame →
        (Ipv4Rx.Idle ((machine p).run s (r.cycles ++ c.cycles)).mIpv4Rx ↔
          Ipv4Rx.Complete (words p r.frame))) ∧
      ((∀ q ∈ past, HoldsDatagram p q.frame) → Ipv4Rx.Complete (words p r.frame) →
        HoldsDatagram p r.frame →
          delivered (machine p) port s r.cycles = [] ∨
            delivered (machine p) port s r.cycles = delivery (words p r.frame)) := by
  intro s
  have hw : ∀ f, Ipv4Frame p f → MacRx.WellFormed (macParams p) f := fun f hf => hf.wellFormed
  obtain ⟨rd, hs, hrd⟩ := ip_after p s₀ i₀ past
  obtain ⟨_, _, hdel⟩ := (ip_follows p).reception (ip_rests p) hs rfl (r.weaken hw)
  refine ⟨?_, fun c hpos => ?_, fun hpast hfit h5 => ?_⟩
  · obtain ⟨up, hsim⟩ := hs
    have hcs : s.mIpv4Rx.headChecksumQ = rd.headCs := hsim.ip.headCs_idle hrd
    rw [hcs, ← r.whole.emit hrd]
    exact hdel
  · exact ip_idle_iff hs hrd r c hpos
  · have hfs : ∀ f ∈ past.map Reception.frame, Fitting p f ∧ HoldsDatagram p f := by
      intro f hf
      obtain ⟨q, hq, rfl⟩ := List.mem_map.1 hf
      exact ⟨q.whole, hpast q hq⟩
    obtain ⟨g, hg⟩ := gate_fitting hfs (gateRel_layers (reset p s₀ i₀))
    have hw' : ∀ f, Fitting p f → MacRx.WellFormed (macParams p) f := fun f hf => hf.wellFormed
    have hdel := delivered_reception (sim_reset p s₀ i₀) (past.map (Reception.weaken hw'))
      (r.weaken hw)
    rw [Reception.allCycles_weaken, List.map_map] at hdel
    have hfr : Fitting p r.frame := ⟨r.whole, hfit⟩
    obtain ⟨_, hout⟩ :=
      gate_step_ipv4 hfr.wellFormed hfr.isIpv4 hfr.totLen_ge hfr.complete h5 hg
    have heq := hdel.trans hout
    change delivered (machine p) port s r.cycles = _ at heq
    rw [heq]
    exact out_eq_or g r.frame

/-- A frame with 34 bytes after its type field, the total length field holding `len` and the header
checksum field `cs`. -/
def lengthFrame (len cs : Word) : List MacRx.Beat :=
  MacRx.framed
    [0x5555, 0x5555, 0x5555, 0xd555, 0x0102, 0x0304, 0x0506, 0x1112, 0x1314, 0x1516, 0x0008,
      0x0045, len, 0x0000, 0x0040, 0x1140, cs, 0x000a, 0x0100, 0x000a, 0x0200,
      0x3412, 0x7856, 0x0900, 0x0000, 0x0041, 0x0000, 0x0000] 2

theorem lengthFrame_headLen (len cs : Word) :
    MacRx.headLen (macParams sampleParams) (lengthFrame len cs) = 11 := by
  rw [lengthFrame, MacRx.headLen_framed]
  rfl

theorem lengthFrame_words (len cs : Word) : words sampleParams (lengthFrame len cs) =
    [0x0045, len, 0x0000, 0x0040, 0x1140, cs, 0x000a, 0x0100, 0x000a, 0x0200,
      0x3412, 0x7856, 0x0900, 0x0000, 0x0041, 0x0000, 0x0000] := by
  have h := lengthFrame_headLen len cs
  rw [lengthFrame] at h ⊢
  rw [words_framed, h]
  rfl

theorem lengthFrame_ipv4Frame (cs : Word) (hlen : 2 ≤ (swapLanes len).toNat) :
    Ipv4Frame sampleParams (lengthFrame len cs) where
  wellFormed := by
    have h := lengthFrame_headLen len cs
    rw [lengthFrame] at h
    apply MacRx.framed_wellFormed (.inr rfl)
    rw [h]
    exact (by decide : 11 < 28)
  isIpv4 := by
    have h := lengthFrame_headLen len cs
    rw [lengthFrame] at h ⊢
    rw [MacRx.isIpv4_framed, h]
    rfl
  totLen _ := by
    rw [lengthFrame_words]
    exact hlen

theorem lengthFrame_handed (len cs : Word) (hlen : 2 ≤ (swapLanes len).toNat) :
    MacRx.handed (macParams sampleParams) (lengthFrame len cs) =
      Ipv4Rx.beats [0x0045, len, 0x0000, 0x0040, 0x1140, cs, 0x000a, 0x0100, 0x000a, 0x0200,
        0x3412, 0x7856, 0x0900, 0x0000, 0x0041, 0x0000, 0x0000]
        (MacRx.lastLen (MacRx.payload (macParams sampleParams) (lengthFrame len cs))) := by
  have hf := lengthFrame_ipv4Frame cs hlen
  rw [handed_words hf.wellFormed hf.isIpv4, lengthFrame_words]

def longReception : Ipv4Reception sampleParams :=
  .ofFrame feed beat_feed (lengthFrame 0x6400 0) (lengthFrame_ipv4Frame 0 (by decide))

def shortReception : Ipv4Reception sampleParams :=
  .ofFrame feed beat_feed (lengthFrame 0x1800 0xd326) (lengthFrame_ipv4Frame 0xd326 (by decide))

def goodReception : Ipv4Reception sampleParams :=
  .ofFrame feed beat_feed (lengthFrame 0x1d00 0xce26) (lengthFrame_ipv4Frame 0xce26 (by decide))

def goodHead : Cut beat MacRx.Idle (Ipv4Frame sampleParams) where
  cycles := (goodReception.frame.take 11).map feed
  gap := []
  frame := goodReception.frame
  pos := 11
  idle := List.forall_mem_nil _
  whole := goodReception.whole
  carries := by
    rw [List.filterMap_map, List.nil_append]
    exact List.filterMap_some

/-- A total length of 100 keeps the IPv4 layer busy up to the packet of the next frame, and after
one of 24 the application gets the second half of the next UDP header. -/
theorem packet_crosses :
    ¬ Ipv4Rx.Idle ((machine sampleParams).run (reset sampleParams default default)
        (longReception.cycles ++ goodHead.cycles)).mIpv4Rx ∧
      delivered (machine sampleParams) port
          ((machine sampleParams).run (reset sampleParams default default) shortReception.cycles)
          goodReception.cycles =
        [⟨true, false, 1, 0x0900⟩, ⟨false, false, 1, 0x0000⟩, ⟨false, true, 1, 0x0041⟩] := by
  have hs := sim_reset sampleParams default default
  constructor
  · have hpos : goodHead.pos ≤ MacRx.headLen (macParams sampleParams) goodHead.frame :=
      Nat.le_of_eq (lengthFrame_headLen 0x1d00 0xce26).symm
    have hiff := ip_idle_iff ⟨.idle, hs⟩ rfl longReception goodHead hpos
    rw [hiff]
    change ¬ Ipv4Rx.packetWords (words sampleParams (lengthFrame 0x6400 0)) ≤ _
    rw [lengthFrame_words]
    decide
  · have hdel := delivered_reception hs [shortReception.weaken fun _ hf => hf.wellFormed]
      (goodReception.weaken fun _ hf => hf.wellFormed)
    have hcycles : Reception.allCycles [shortReception.weaken fun _ hf =>
        (hf.wellFormed : MacRx.WellFormed (macParams sampleParams) _)] = shortReception.cycles :=
      List.append_nil _
    rw [hcycles] at hdel
    have hshort := lengthFrame_handed 0x1800 0xd326 (by decide)
    have hgood := lengthFrame_handed 0x1d00 0xce26 (by decide)
    refine hdel.trans ?_
    change (stack sampleParams).emit ((stack sampleParams).run _
      (MacRx.handed (macParams sampleParams) (lengthFrame 0x1800 0xd326) ++ []))
      (MacRx.handed (macParams sampleParams) (lengthFrame 0x1d00 0xce26)) = _
    rw [hshort, hgood, List.append_nil, stack, layers, Transducer.cascade_run,
      Transducer.cascade_emit, Ipv4Rx.run_beats (by decide) (by decide),
      Ipv4Rx.emit_beats fun _ => by decide, Ipv4Rx.emit_beats fun _ => by decide]
    decide

end EthRx

end LowLatencyEthernet
