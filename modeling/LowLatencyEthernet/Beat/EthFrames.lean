import LowLatencyEthernet.Beat.EthRx

namespace LowLatencyEthernet
set_option autoImplicit true

open Sync

namespace MacRx

/-- A frame that is not cancelled and ends on a beat of one or two bytes. -/
structure WellFormed (p : Params) (f : List Beat) : Prop where
  frame : IsFrame p f
  uncancelled : ∀ b ∈ f, b.cancel = false
  len : ∀ b ∈ f, b.term = true → b.len = 1 ∨ b.len = 2

def handed (p : Params) (f : List Beat) : List Ipv4Rx.Beat := (expected p f).filterMap id

theorem WellFormed.emit_eq (hf : WellFormed p f) :
    (transducer p).emit .invalid f = handed p f := by
  rw [Transducer.emit, hf.frame.trace_eq, handed]

theorem framed_wellFormed (hlen : len = 1 ∨ len = 2)
    (hpay : headLen p (framed ws len) < ws.length) :
    WellFormed p (framed ws len) := by
  have hne : ws ≠ [] := List.ne_nil_of_length_pos (by omega)
  refine ⟨⟨framed_delimited ws len hne, ?_⟩, fun b => cancel_framed, ?_⟩
  · intro _
    rwa [length_framed]
  · intro b hb ht
    rwa [len_framed hb ht]

theorem handed_other (h : isIpv4 p f = false) : handed p f = [] := by
  rw [handed, expected, List.filterMap_eq_nil_iff]
  intro a ha
  obtain ⟨k, hk, rfl⟩ := List.mem_mapIdx.1 ha
  simp [h]

def packet (pl : List Beat) : List Ipv4Rx.Beat :=
  pl.mapIdx fun j b => ⟨decide (j = 0), b.data, if b.term then b.len else 2⟩

theorem filterMap_mapIdx_drop (g : Nat → α → β) (n : Nat) (f : List α) :
    (f.mapIdx fun k b => if n ≤ k then some (g (k - n) b) else none).filterMap id =
      (f.drop n).mapIdx g := by
  induction f generalizing n g with
  | nil => simp
  | cons b f ih =>
    cases n with
    | zero => simpa using ih (fun k => g (k + 1)) 0
    | succ n => simpa using ih g n

theorem take_mapIdx (f : Nat → α → β) (l : List α) (k : Nat) :
    (l.mapIdx f).take k = (l.take k).mapIdx f := by
  apply List.ext_getElem?
  intro j
  by_cases hj : j < k
  · rw [List.getElem?_take_of_lt hj, List.getElem?_mapIdx, List.getElem?_mapIdx,
      List.getElem?_take_of_lt hj]
  · rw [List.getElem?_eq_none (by simp; omega), List.getElem?_eq_none (by simp; omega)]

theorem expected_ipv4 (h : isIpv4 p f = true) : expected p f = f.mapIdx fun k b =>
    if headLen p f ≤ k then
      some ⟨decide (k - headLen p f = 0), b.data, if b.term then b.len else 2⟩
    else none := by
  rw [expected]
  congr 1
  funext k b
  by_cases hk : headLen p f ≤ k
  · have he : k - headLen p f = 0 ↔ k = headLen p f := by omega
    simp [h, hk, he]
  · simp [hk]

theorem handed_ipv4 (h : isIpv4 p f = true) : handed p f = packet (f.drop (headLen p f)) := by
  rw [packet, ← filterMap_mapIdx_drop, handed, expected_ipv4 h]

theorem IsFrame.emit_take (hf : IsFrame p f) (h : isIpv4 p f = true) (k : Nat) :
    (transducer p).emit .invalid (f.take k) = packet ((f.take k).drop (headLen p f)) := by
  rw [Transducer.emit, Mealy.trace_take, hf.trace_eq, expected_ipv4 h, take_mapIdx, packet,
    ← filterMap_mapIdx_drop]

end MacRx

namespace EthRx

theorem WellFormed.beatOk (hf : MacRx.WellFormed p f) :
    (MacRx.transducer p).Along BeatOk .invalid f := by
  suffices h : ∀ (bs : List MacRx.Beat) (ph : MacRx.Phase),
      (MacRx.transducer p).Along MacRx.StartOk ph bs → (∀ b ∈ bs, b.cancel = false) →
        (∀ b ∈ bs, b.term = true → b.len = 1 ∨ b.len = 2) →
          (MacRx.transducer p).Along BeatOk ph bs from
    h f .invalid hf.frame.along hf.uncancelled hf.len
  intro bs
  induction bs with
  | nil => exact fun _ _ _ _ => True.intro
  | cons b bs ih =>
    intro ph hs hc hl
    refine ⟨⟨hs.1, fun g hg => ⟨hc b List.mem_cons_self, ?_⟩⟩,
      ih _ hs.2 (fun c hm => hc c (List.mem_cons_of_mem _ hm))
        fun c hm => hl c (List.mem_cons_of_mem _ hm)⟩
    cases ph with
    | data first bypass =>
      cases bypass <;> simp [MacRx.Phase.out] at hg
      subst hg
      cases ht : b.term with
      | true => simpa [Ipv4Rx.LenOk] using hl b List.mem_cons_self ht
      | false => simp [Ipv4Rx.LenOk]
    | _ => simp [MacRx.Phase.out] at hg

theorem frame_run {a : Transducer δ Ipv4Rx.Beat ε} (hf : MacRx.WellFormed p f) :
    ((MacRx.transducer p).cascade a).run (.invalid, y) f =
      (.invalid, a.run y (MacRx.handed p f)) := by
  rw [Transducer.cascade_run, hf.frame.run_eq, hf.emit_eq]

theorem frame_emit {a : Transducer δ Ipv4Rx.Beat ε} (hf : MacRx.WellFormed p f) :
    ((MacRx.transducer p).cascade a).emit (.invalid, y) f = a.emit y (MacRx.handed p f) := by
  rw [Transducer.cascade_emit, hf.emit_eq]

theorem rests_cascade (p : MacRx.Params) (a : Transducer δ Ipv4Rx.Beat ε) :
    Rests ((MacRx.transducer p).cascade a) (fun x b => BeatOk x.1 b) MacRx.Idle
      (MacRx.WellFormed p) (·.1 = .invalid) where
  idle := by
    rintro ⟨_, y⟩ b rfl hb
    simp only [MacRx.Idle] at hb
    have hn : MacRx.Phase.next p .invalid b = .invalid := by
      simp [MacRx.Phase.next, hb]
    exact ⟨⟨fun _ => rfl, fun _ hg => absurd hg (Option.some_ne_none _).symm⟩,
      congrArg (·, y) hn, rfl⟩
  frame := by
    rintro ⟨_, y⟩ f rfl hf
    have hal := (Transducer.cascade_along _ a _ _ y _).2 (WellFormed.beatOk hf)
    exact ⟨hal, by rw [frame_run hf]⟩

def feed (b : MacRx.Beat) : In := ⟨b.cancel, true, b.data, b.start, b.term, b.len⟩

theorem beat_feed (b : MacRx.Beat) : beat (feed b) = some b := rfl

abbrev Reception (p : Params) :=
  Sync.Reception beat MacRx.Idle (MacRx.WellFormed (macParams p))

theorem rests (p : Params) :
    Rests (transducer p) Ok MacRx.Idle (MacRx.WellFormed (macParams p)) (·.1 = .invalid) :=
  rests_cascade (macParams p) (stack p)

def layersAfter (p : Params) (y : Ipv4Rx.Reader × UdpRx.Phase) (fs : List (List MacRx.Beat)) :
    Ipv4Rx.Reader × UdpRx.Phase :=
  (stack p).run y (fs.flatMap (MacRx.handed (macParams p)))

theorem run_frames (hfs : ∀ f ∈ fs, MacRx.WellFormed (macParams p) f) :
    (transducer p).run (.invalid, y) fs.flatten = (.invalid, layersAfter p y fs) := by
  induction fs generalizing y with
  | nil => rfl
  | cons f fs ih =>
    have hstep : (transducer p).run (.invalid, y) f = _ := frame_run (hfs f List.mem_cons_self)
    rw [List.flatten_cons, Mealy.run_append, hstep,
      ih fun g hg => hfs g (List.mem_cons_of_mem _ hg), layersAfter, layersAfter,
      List.flatMap_cons, Mealy.run_append]

theorem after_frames (hs : Sim p s (.invalid, y)) (past : List (Reception p)) :
    Sim p ((machine p).run s (Reception.allCycles past))
      (.invalid, layersAfter p y (past.map Reception.frame)) := by
  have hfs : ∀ f ∈ past.map Reception.frame, MacRx.WellFormed (macParams p) f := by
    intro f hf
    obtain ⟨r, _, rfl⟩ := List.mem_map.1 hf
    exact r.whole
  obtain ⟨hs, _⟩ := (follows p).after (rests p) hs rfl past
  rwa [List.flatMap_def, run_frames hfs] at hs

theorem delivered_reception (hs : Sim p s (.invalid, y)) (past : List (Reception p))
    (r : Reception p) :
    delivered (machine p) port ((machine p).run s (Reception.allCycles past)) r.cycles =
      (stack p).emit (layersAfter p y (past.map Reception.frame))
        (MacRx.handed (macParams p) r.frame) := by
  obtain ⟨_, _, hdel⟩ := (follows p).reception (rests p) (after_frames hs past) rfl r
  rw [hdel, transducer, frame_emit r.whole]

/-- The valid beats of well-formed frames, with idle beats between them. -/
inductive FrameStream (p : Params) : List MacRx.Beat → Prop where
  | nil : FrameStream p []
  | idle : MacRx.Idle b → FrameStream p bs → FrameStream p (b :: bs)
  | frame : MacRx.WellFormed (macParams p) f → FrameStream p bs → FrameStream p (f ++ bs)

theorem FrameStream.along (h : FrameStream p bs) (hx : x.1 = .invalid) :
    (transducer p).Along Ok x bs := by
  induction h generalizing x with
  | nil => exact True.intro
  | idle hb _ ih =>
    obtain ⟨hok, hn, _⟩ := (rests p).idle hx hb
    exact ⟨hok, ih (by rwa [hn])⟩
  | frame hf _ ih =>
    obtain ⟨hal, hr⟩ := (rests p).frame hx hf
    exact (Mealy.along_append _ _ _ _ _).2 ⟨hal, ih hr⟩

/-- Two runs with the same valid beats deliver the same, wherever their stalls are and whatever the
bus holds meanwhile. The beats may end inside a frame. -/
theorem stalls_unseen (p : Params) (s₀ : State) (i₀ : In) (bs rest : List MacRx.Beat)
    (is js : List In) (hbs : FrameStream p (bs ++ rest)) (his : is.filterMap beat = bs)
    (hjs : js.filterMap beat = bs) :
    delivered (machine p) port (reset p s₀ i₀) is =
      delivered (machine p) port (reset p s₀ i₀) js := by
  have hs := sim_reset p s₀ i₀
  have hal := hbs.along (x := (.invalid, layers (reset p s₀ i₀))) rfl
  have hbs := ((Mealy.along_append _ _ _ _ _).1 hal).1
  rw [(follows p).delivered_eq hs (by rwa [his]), (follows p).delivered_eq hs (by rwa [hjs]),
    his, hjs]

def sampleParams : Params := ⟨true, false, false, 0, 0, 0x1234, 0x5678⟩

/-- A frame with one byte of payload, the header checksum field holding `cs`. -/
def sampleFrame (cs : Word) : List MacRx.Beat :=
  MacRx.framed
    [0x5555, 0x5555, 0x5555, 0xd555, 0x0102, 0x0304, 0x0506, 0x1112, 0x1314, 0x1516, 0x0008,
      0x0045, 0x1d00, 0x0000, 0x0040, 0x1140, cs, 0x000a, 0x0100, 0x000a, 0x0200,
      0x3412, 0x7856, 0x0900, 0x0000, 0x0041, 0x0000, 0x0000] 2

theorem sampleFrame_headLen (cs : Word) :
    MacRx.headLen (macParams sampleParams) (sampleFrame cs) = 11 := by
  rw [sampleFrame, MacRx.headLen_framed]
  rfl

theorem sampleFrame_wellFormed (cs : Word) :
    MacRx.WellFormed (macParams sampleParams) (sampleFrame cs) := by
  apply MacRx.framed_wellFormed (.inr rfl)
  have h := sampleFrame_headLen cs
  rw [sampleFrame] at h
  rw [h]
  exact (by decide : 11 < 28)

theorem stalls_unseen_sample :
    delivered (machine sampleParams) port (reset sampleParams default default)
        ((sampleFrame 0xce26).map feed) =
      delivered (machine sampleParams) port (reset sampleParams default default)
        ((sampleFrame 0xce26).flatMap fun b => [⟨true, false, 0xffff, true, true, 1⟩, feed b]) := by
  have hstream : FrameStream sampleParams (sampleFrame 0xce26 ++ []) :=
    .frame (sampleFrame_wellFormed 0xce26) .nil
  apply stalls_unseen sampleParams default default _ [] _ _ hstream
  · exact (Reception.ofFrame feed beat_feed (sampleFrame 0xce26)
      (sampleFrame_wellFormed 0xce26) : Reception sampleParams).carries
  · rw [List.filterMap_flatMap]
    exact List.flatMap_singleton' _

end EthRx

end LowLatencyEthernet
