import LowLatencyEthernet.Beat.Verdicts

namespace LowLatencyEthernet.EthRx
set_option autoImplicit true

open Sync

abbrev ConsistentReception (p : Params) := Sync.Reception beat MacRx.Idle (Consistent p)

theorem gate_run (hfs : ∀ f ∈ fs, Consistent p f) (hy : GateRel g y) :
    GateRel (gate.run g (fs.map (verdict p))) (layersAfter p y fs) := by
  induction fs generalizing g y with
  | nil => exact hy
  | cons f fs ih =>
    obtain ⟨hstep, _⟩ := gate_step (hfs f List.mem_cons_self) hy
    have hrest := ih (fun h hm => hfs h (List.mem_cons_of_mem _ hm)) hstep
    rwa [layersAfter, List.flatMap_cons, Mealy.run_append]

theorem frames_of (rs : List (ConsistentReception p)) :
    ∀ f ∈ rs.map Reception.frame, Consistent p f := by
  intro f hf
  obtain ⟨r, _, rfl⟩ := List.mem_map.1 hf
  exact r.whole

def verdicts (rs : List (ConsistentReception p)) : List Verdict :=
  rs.map fun r => verdict p r.frame

theorem delivered_gate (hs : Sim p s (.invalid, y)) (hy : GateRel g y)
    (past : List (ConsistentReception p)) (r : ConsistentReception p) :
    delivered (machine p) port ((machine p).run s (Reception.allCycles past)) r.cycles =
      gate.out (gate.run g (verdicts past)) (verdict p r.frame) := by
  have hw : ∀ f, Consistent p f → MacRx.WellFormed (macParams p) f := fun f hf => hf.wellFormed
  have hdel := delivered_reception hs (past.map (Reception.weaken hw)) (r.weaken hw)
  rw [Reception.allCycles_weaken, List.map_map] at hdel
  have hpast := gate_run (frames_of past) hy
  rw [List.map_map] at hpast
  exact hdel.trans (gate_step r.whole hpast).2

theorem gateRel_layers (s : State) : GateRel .free (layers s) := ⟨rfl, rfl⟩

/-- The last frame that came as far as the header checksum had a wrong one. -/
def lastCorrupt (p : Params) (fs : List (List MacRx.Beat)) : Bool :=
  ((fs.filter (reachesUdp p)).getLast?).any fun f => Ipv4Rx.badChecksum (words p f)

/-- The frame holds a datagram for the application. -/
def deliverable (p : Params) (f : List MacRx.Beat) : Bool :=
  reachesUdp p f && !Ipv4Rx.badChecksum (words p f) && !wrongPort p (words p f)

theorem gate_jammed (fs : List (List MacRx.Beat)) :
    gate.run .free (fs.map (verdict p)) = if lastCorrupt p fs then .jammed else .free := by
  induction fs using List.reverseRecOn with
  | nil => rfl
  | append_singleton fs f ih =>
    rw [List.map_append, Mealy.run_append, ih]
    cases hr : reachesUdp p f with
    | false =>
      have hv : verdict p f = .filtered := verdictOf_filtered hr
      simp [lastCorrupt, hr, hv, gate, Gate.next]
    | true =>
      cases hb : Ipv4Rx.badChecksum (words p f) <;>
        simp [lastCorrupt, verdict, verdictOf, hr, hb, gate, Gate.next]

theorem delivery_ne_nil (hc : Ipv4Rx.Consistent ws n) (hfit : Ipv4Rx.packetWords ws ≤ ws.length) :
    delivery ws ≠ [] := by
  have h5 := packetWords_ge hc
  have hlen := Ipv4Rx.length_payloadWords ws
  apply List.ne_nil_of_length_pos
  rw [delivery, List.length_mapIdx, List.length_drop]
  omega

theorem out_jammed_iff (hf : Consistent p f) :
    gate.out .jammed (verdict p f) = gate.out .free (verdict p f) ↔ deliverable p f = false := by
  cases hr : reachesUdp p f with
  | false =>
    have hv : verdict p f = .filtered := verdictOf_filtered hr
    simp [hv, deliverable, hr, gate, Gate.out]
  | true =>
    cases hb : Ipv4Rx.badChecksum (words p f) with
    | true => simp [verdict, verdictOf, deliverable, hr, hb, gate, Gate.out]
    | false =>
      cases hw : wrongPort p (words p f) with
      | true => simp [verdict, verdictOf, deliverable, hr, hb, hw, gate, Gate.out]
      | false =>
        have hi : MacRx.isIpv4 (macParams p) f = true := by
          rw [reachesUdp, Bool.and_eq_true] at hr
          exact hr.1
        have hne := delivery_ne_nil (hf.lengths hi) (fits_words hf hi)
        simpa [verdict, verdictOf, deliverable, hr, hb, hw, gate, Gate.out] using hne.symm

/-- Frame by frame, receptions deliver what each of them delivers right after reset. -/
def Isolated (p : Params) (s₀ : State) (i₀ : In) (rs : List (ConsistentReception p)) : Prop :=
  ∀ past r future, rs = past ++ r :: future →
    delivered (machine p) port
        ((machine p).run (reset p s₀ i₀) (Reception.allCycles past)) r.cycles =
      delivered (machine p) port (reset p s₀ i₀) r.cycles

/-- Frames are isolated unless a deliverable one comes while the last frame before it that passed
the filters had a wrong checksum. -/
theorem isolated_iff (p : Params) (s₀ : State) (i₀ : In) (rs : List (ConsistentReception p)) :
    Isolated p s₀ i₀ rs ↔ ∀ past r future, rs = past ++ r :: future →
      deliverable p r.frame = true → lastCorrupt p (past.map Reception.frame) = false := by
  have halone (r : ConsistentReception p) :
      delivered (machine p) port (reset p s₀ i₀) r.cycles = gate.out .free (verdict p r.frame) :=
    delivered_gate (sim_reset p s₀ i₀) (gateRel_layers _) [] r
  have hstep (past : List (ConsistentReception p)) (r : ConsistentReception p) :
      (delivered (machine p) port
          ((machine p).run (reset p s₀ i₀) (Reception.allCycles past)) r.cycles =
        delivered (machine p) port (reset p s₀ i₀) r.cycles) ↔
      (deliverable p r.frame = true → lastCorrupt p (past.map Reception.frame) = false) := by
    have hjam := gate_jammed (p := p) (past.map Reception.frame)
    rw [List.map_map] at hjam
    rw [delivered_gate (sim_reset p s₀ i₀) (gateRel_layers _), halone, verdicts]
    change gate.out (gate.run .free (past.map (verdict p ∘ Reception.frame))) _ = _ ↔ _
    rw [hjam]
    have hiff := out_jammed_iff r.whole
    cases lastCorrupt p (past.map Reception.frame) with
    | false => simp
    | true => simpa using hiff
  constructor
  · intro h past r future he
    exact (hstep past r).1 (h past r future he)
  · intro h past r future he
    exact (hstep past r).2 (h past r future he)

theorem sampleFrame_words (cs : Word) : words sampleParams (sampleFrame cs) =
    [0x0045, 0x1d00, 0x0000, 0x0040, 0x1140, cs, 0x000a, 0x0100, 0x000a, 0x0200,
      0x3412, 0x7856, 0x0900, 0x0000, 0x0041, 0x0000, 0x0000] := by
  have h := sampleFrame_headLen cs
  rw [sampleFrame] at h ⊢
  rw [words_framed, h]
  rfl

theorem sampleFrame_consistent (cs : Word) : Consistent sampleParams (sampleFrame cs) := by
  have h := sampleFrame_headLen cs
  refine ⟨sampleFrame_wellFormed cs, fun _ => ?_⟩
  rw [sampleFrame_words]
  refine ⟨?_, ?_, ?_⟩
  · exact (by decide : 5 ≤ ((0x0045 : Word).extractLsb' 0 4).toNat)
  · exact (by decide : 4 * ((0x0045 : Word).extractLsb' 0 4).toNat + 9 ≤
      (swapLanes 0x1d00).toNat)
  · rw [sampleFrame, MacRx.size_payload_framed]
    rw [sampleFrame] at h
    rw [h]
    exact (by decide : (swapLanes 0x1d00).toNat ≤ 2 * (28 - 11))

theorem sampleFrame_isIpv4 (cs : Word) :
    MacRx.isIpv4 (macParams sampleParams) (sampleFrame cs) = true := by
  have h := sampleFrame_headLen cs
  rw [sampleFrame] at h ⊢
  rw [MacRx.isIpv4_framed, h]
  rfl

/-- A frame with a wrong checksum swallows the good one after it. -/
theorem isolated_fails : ¬ Isolated sampleParams default default
    [.ofFrame feed beat_feed (sampleFrame 0) (sampleFrame_consistent 0),
      .ofFrame feed beat_feed (sampleFrame 0xce26) (sampleFrame_consistent 0xce26)] := by
  intro h
  have hbad : verdict sampleParams (sampleFrame 0) = .corrupt := by
    rw [verdict, verdictOf, reachesUdp, sampleFrame_isIpv4, sampleFrame_words]
    decide
  have hgood : verdict sampleParams (sampleFrame 0xce26) = .accepted [⟨true, true, 1, 0x0041⟩] := by
    rw [verdict, verdictOf, reachesUdp, sampleFrame_isIpv4, sampleFrame_words]
    decide
  have hafter := h [_] _ [] rfl
  have halone := delivered_gate (sim_reset sampleParams default default) (gateRel_layers _) []
    (.ofFrame feed beat_feed (sampleFrame 0xce26) (sampleFrame_consistent 0xce26))
  rw [delivered_gate (sim_reset sampleParams default default) (gateRel_layers _)] at hafter
  have heq : gate.out (gate.run .free [verdict sampleParams (sampleFrame 0)])
      (verdict sampleParams (sampleFrame 0xce26)) =
      gate.out .free (verdict sampleParams (sampleFrame 0xce26)) := hafter.trans halone
  rw [hbad, hgood] at heq
  cases heq

end LowLatencyEthernet.EthRx
