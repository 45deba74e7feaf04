import LowLatencyEthernet.Beat.MacFrames
import LowLatencyEthernet.Beat.UdpRx

namespace LowLatencyEthernet
set_option autoImplicit true

open Sync

def MacRx.Phase.isData : MacRx.Phase → Bool
  | .data _ _ => true
  | _ => false

theorem MacRx.Phase.isData_next (h : (MacRx.Phase.next p ph b).isData = true) :
    ph.isData = true ∨ (ph.startO = false ∧ ph.out b = none) := by
  cases ph with
  | data first bypass => exact .inl rfl
  | _ => exact .inr ⟨rfl, rfl⟩

theorem MacRx.Phase.startO_next (h : (MacRx.Phase.next p ph b).startO = true) :
    ph.startO = false ∧ ph.out b = none := by
  cases ph with
  | data first bypass =>
    cases hc : b.cancel <;> cases ht : b.term <;>
      simp [MacRx.Phase.next, MacRx.Phase.startO, hc, ht] at h
  | _ => exact ⟨rfl, rfl⟩

theorem MacRx.Phase.start_out (h : MacRx.Phase.out ph b = some g) :
    g.start = ph.startO ∧ ph.isData = true := by
  cases ph with
  | data first bypass =>
    cases bypass <;> simp [MacRx.Phase.out] at h
    subst h
    exact ⟨rfl, rfl⟩
  | _ => simp [MacRx.Phase.out] at h

theorem Ipv4Rx.Reader.startO_next (h : (Ipv4Rx.Reader.next p r b).startO = true) :
    r.startO = false ∧ r.out b = none := by
  obtain ⟨ph, tl, hc⟩ := r
  cases ph with
  | data cnt e d f =>
    by_cases hge : cnt ≥ tl <;> simp [Ipv4Rx.Reader.next, Ipv4Rx.Reader.startO, hge] at h
  | _ => exact ⟨rfl, rfl⟩

theorem Ipv4Rx.Reader.start_out (h : Ipv4Rx.Reader.out r b = some u) : u.start = r.startO := by
  obtain ⟨ph, tl, hc⟩ := r
  cases ph with
  | data cnt e d f =>
    cases d <;> simp [Ipv4Rx.Reader.out] at h
    subst h
    rfl
  | _ => simp [Ipv4Rx.Reader.out] at h

theorem Ipv4Rx.settled_of_quiet (hb : Ipv4Rx.beat i = none) (hs : i.startI = false) :
    Ipv4Rx.Settled (Ipv4Rx.next p true s i) := by
  intro hi
  have hi' : s.fsmIdleQ = true := by
    rw [Ipv4Rx.beat_eq_none] at hb
    simpa [Ipv4Rx.next, hb] using hi
  exact Ipv4Rx.settle hs hi' hi

theorem UdpRx.settled_of_quiet (hb : UdpRx.beat i = none) (hs : i.startI = false) :
    UdpRx.Settled (UdpRx.next p true s i) := by
  intro hi
  have hi' : s.fsmIdleQ = true := by
    rw [UdpRx.beat_eq_none] at hb
    simpa [UdpRx.next, hb] using hi
  exact UdpRx.settle hs hi' hi

namespace EthRx

def beat (i : In) : Option MacRx.Beat := MacRx.beat (macIn i)

def port (o : Out) : Option AppBeat :=
  if o.appValidO then some ⟨o.appStartO, o.appTermO, o.appTermLenO, o.appDataO⟩ else none

def stack (p : Params) : Transducer (Ipv4Rx.Reader × UdpRx.Phase) Ipv4Rx.Beat AppBeat :=
  (Ipv4Rx.transducer (ipParams p)).cascade (UdpRx.transducer (udpParams p))

/-- The receive path without its stalls. -/
def transducer (p : Params) :
    Transducer (MacRx.Phase × Ipv4Rx.Reader × UdpRx.Phase) MacRx.Beat AppBeat :=
  (MacRx.transducer (macParams p)).cascade (stack p)

/-- What a beat has to satisfy where it arrives: a start comes between frames, and a beat the MAC
passes on is not cancelled and carries one or two bytes. -/
def BeatOk (ph : MacRx.Phase) (b : MacRx.Beat) : Prop :=
  MacRx.StartOk ph b ∧ ∀ g, ph.out b = some g → b.cancel = false ∧ Ipv4Rx.LenOk g

def Ok (x : MacRx.Phase × Ipv4Rx.Reader × UdpRx.Phase) (b : MacRx.Beat) : Prop := BeatOk x.1 b

/-- Each layer is in its phase, settled when the layer below it may show a start and calm when a
beat may arrive. -/
structure Sim (p : Params) (s : State) (x : MacRx.Phase × Ipv4Rx.Reader × UdpRx.Phase) : Prop where
  mac : MacRx.Sim (macParams p) s.mMacRx x.1
  ip : Ipv4Rx.Sim s.mIpv4Rx x.2.1
  udp : UdpRx.Sim s.mUdpRx x.2.2
  ipCalm : x.1.isData = true → Ipv4Rx.Calm s.mIpv4Rx
  ipSettled : x.1.startO = true → Ipv4Rx.Settled s.mIpv4Rx
  udpSettled : x.2.1.startO = true → UdpRx.Settled s.mUdpRx

theorem Sim.stall (h : Sim p s x) (hb : beat i = none) : Sim p (next p true s i) x := by
  have hip : Ipv4Rx.beat (ipIn s i) = none := MacRx.Sim.stall_out hb
  have hudp : UdpRx.beat (udpIn s i) = none := Ipv4Rx.stall_out hip
  exact ⟨h.mac.stall hb, h.ip.stall hip, h.udp.stall hudp, fun hd => (h.ipCalm hd).stall hip,
    fun hs => (h.ipSettled hs).stall hip, fun hs => (h.udpSettled hs).stall hudp⟩

theorem stall_out (hb : beat i = none) : port (out s i) = none := by
  have hip : Ipv4Rx.beat (ipIn s i) = none := MacRx.Sim.stall_out hb
  have hudp : UdpRx.beat (udpIn s i) = none := Ipv4Rx.stall_out hip
  exact UdpRx.stall_out hudp

theorem Sim.step_stack (h : Sim p s (ph, r, up)) (hg : MacRx.port (macOut s i) = g)
    (hgs : ∀ b, g = some b → b.start = ph.startO ∧ ph.isData = true)
    (hok : ∀ b, g = some b → i.phyCancelI = false ∧ Ipv4Rx.LenOk b) :
    Ipv4Rx.Sim (next p true s i).mIpv4Rx ((stack p).run (r, up) g.toList).1 ∧
      UdpRx.Sim (next p true s i).mUdpRx ((stack p).run (r, up) g.toList).2 ∧
      (((stack p).run (r, up) g.toList).1.startO = true →
        UdpRx.Settled (next p true s i).mUdpRx) ∧
      port (out s i) = g.bind ((stack p).out (r, up)) := by
  cases g with
  | none =>
    have hudp : UdpRx.beat (udpIn s i) = none := Ipv4Rx.stall_out hg
    exact ⟨h.ip.stall hg, h.udp.stall hudp, fun hs => (h.udpSettled hs).stall hudp,
      UdpRx.stall_out hudp⟩
  | some b =>
    obtain ⟨hcan, hlen⟩ := hok b rfl
    have hset : b.start = true → Ipv4Rx.Settled s.mIpv4Rx := by
      rw [(hgs b rfl).1]
      exact h.ipSettled
    have hbeat : Ipv4Rx.beat (ipIn s i) = some b := hg
    have hip := h.ip.step (p := ipParams p) (h.ipCalm (hgs b rfl).2) hset hbeat hcan hlen
    have hout : Ipv4Rx.port (ipOut s i) = r.out b := h.ip.reads.out_eq hbeat
    simp only [Option.toList_some, Mealy.run_cons, Mealy.run_nil, Option.bind_some, stack,
      Transducer.cascade]
    refine ⟨hip, ?_⟩
    change UdpRx.Sim _ (Mealy.run _ up (r.out b).toList) ∧ (_ → _) ∧
      _ = (r.out b).bind (UdpRx.Phase.out up)
    cases hu : r.out b with
    | none =>
      rw [hu] at hout
      refine ⟨h.udp.stall hout, fun hs => ?_, UdpRx.stall_out hout⟩
      have hq := (Ipv4Rx.Reader.startO_next hs).1
      exact UdpRx.settled_of_quiet hout (h.ip.reads.startO.trans hq)
    | some u =>
      rw [hu] at hout
      have hset' : u.start = true → UdpRx.Settled s.mUdpRx := by
        rw [Ipv4Rx.Reader.start_out hu]
        exact h.udpSettled
      refine ⟨h.udp.step (p := udpParams p) hset' hout hcan rfl, fun hs => ?_,
        h.udp.out_eq hout⟩
      have hq := (Ipv4Rx.Reader.startO_next hs).2
      rw [hu] at hq
      cases hq

theorem Sim.step (h : Sim p s x) (hb : beat i = some b) (hok : Ok x b) :
    Sim p (next p true s i) ((transducer p).next x b) ∧
      port (out s i) = (transducer p).out x b := by
  obtain ⟨ph, r, up⟩ := x
  have hmac := h.mac.step hb hok.1
  have hg : MacRx.port (macOut s i) = ph.out b := h.mac.out_eq hb
  obtain ⟨hip, hudp, hus, hout⟩ := h.step_stack hg (fun _ hg' => MacRx.Phase.start_out hg')
    fun g hg' => ⟨(MacRx.beat_eq_some.1 hb).2.1.trans (hok.2 g hg').1, (hok.2 g hg').2⟩
  -- a phase that passes nothing on and shows no start leaves the IPv4 registers clear
  have hquiet (hq : ph.startO = false) (hn : ph.out b = none) :
      Ipv4Rx.Settled (next p true s i).mIpv4Rx := by
    have hipn : Ipv4Rx.beat (ipIn s i) = none := hg.trans hn
    exact Ipv4Rx.settled_of_quiet hipn (h.mac.startO.trans hq)
  refine ⟨⟨hmac, hip, hudp, fun hd => ?_, fun hs => ?_, hus⟩, hout⟩
  · rcases MacRx.Phase.isData_next hd with hd' | ⟨hq, hn⟩
    · cases ho : ph.out b with
      | none =>
        have hipn : Ipv4Rx.beat (ipIn s i) = none := hg.trans ho
        exact (h.ipCalm hd').stall hipn
      | some g =>
        have hbeat : Ipv4Rx.beat (ipIn s i) = some g := hg.trans ho
        obtain ⟨hcan, hlen⟩ := hok.2 g ho
        exact h.ip.calm_step hbeat ((MacRx.beat_eq_some.1 hb).2.1.trans hcan) hlen
    · exact (hquiet hq hn).calm
  · obtain ⟨hq, hn⟩ := MacRx.Phase.startO_next hs
    exact hquiet hq hn

theorem follows (p : Params) : Follows (machine p) (transducer p) beat port Ok (Sim p) where
  stall h hb := h.stall hb
  stall_out _ hb := stall_out hb
  step h hb hok := (h.step hb hok).1
  step_out h hb hok := (h.step hb hok).2

def layers (s : State) : Ipv4Rx.Reader × UdpRx.Phase :=
  (⟨.idle, s.mIpv4Rx.totLenQ, s.mIpv4Rx.headChecksumQ⟩, .idle)

theorem sim_reset (p : Params) (s : State) (i : In) :
    Sim p (reset p s i) (.invalid, layers (reset p s i)) :=
  ⟨⟨rfl, rfl, rfl⟩, ⟨⟨rfl, rfl, rfl⟩, rfl, rfl⟩, ⟨rfl, rfl, rfl⟩, nofun, nofun, nofun⟩

end EthRx

end LowLatencyEthernet
