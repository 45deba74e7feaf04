import LowLatencyEthernet.Tb.MacTb

namespace LowLatencyEthernet.MacTb
set_option autoImplicit true

open Sync MacRx

def plain (w : Word) : Beat := ⟨false, false, w, false, 2⟩

def lastBeat (q : Packet) : Beat := ⟨false, false, q.last, true, BitVec.ofNat 2 (min q.l 2)⟩

def headBeats (q : Packet) : List Beat :=
  ⟨false, true, headWord q 0, false, 2⟩ ::
    (List.range' 1 (MacTb.headLen q / 2 - 1)).map fun i => plain (headWord q i)

theorem filterMap_ticks (f : α → Tick) (g : α → Beat) (h : ∀ a, beat (f a).drive = some (g a))
    (as : List α) : ((as.map f).map Tick.drive).filterMap beat = as.map g := by
  induction as with
  | nil => rfl
  | cons a as ih =>
    rw [List.map_cons, List.map_cons, List.filterMap_cons_some (h a), ih, List.map_cons]

theorem filterMap_head (q : Packet) :
    ((headTicks q).map Tick.drive).filterMap beat = headBeats q :=
  congrArg (_ :: ·) (filterMap_ticks _ _ (fun _ => rfl) _)

theorem filterMap_packet (q : Packet) : ((sendPacket q).map Tick.drive).filterMap beat =
    headBeats q ++ (innerWords q).map plain ++ [lastBeat q] := by
  have hinner : (((innerWords q).map (innerTick q)).map Tick.drive).filterMap beat =
      (innerWords q).map plain := filterMap_ticks _ _ (fun _ => rfl) _
  rw [sendPacket_eq, List.map_append, List.map_append, List.filterMap_append,
    List.filterMap_append, filterMap_head, hinner]
  rfl

theorem headWord_type (q : Packet) : headWord q (MacTb.headLen q / 2 - 1) = hType q := by
  rw [headWord, setHead, MacTb.headLen]
  by_cases h : q.hasVtag ≠ 0
  · rw [if_pos h, if_pos h, BitVec.extractLsb'_append_eq_of_le (by decide),
      BitVec.extractLsb'_append_eq_of_le (by decide)]
    exact BitVec.extractLsb'_eq_self
  · rw [if_neg h, if_neg h, BitVec.extractLsb'_append_eq_of_le (by decide),
      BitVec.extractLsb'_append_eq_of_add_le (by decide)]
    exact BitVec.extractLsb'_eq_self

theorem headWord_tag (h : q.hasVtag ≠ 0) : headWord q 10 = tpic := by
  rw [headWord, setHead, if_pos h, BitVec.extractLsb'_append_eq_of_le (by decide),
    BitVec.extractLsb'_append_eq_of_add_le (by decide),
    BitVec.extractLsb'_append_eq_of_add_le (by decide)]
  exact BitVec.extractLsb'_eq_self

theorem run_head (ws : Nat → Word) (n k : Nat) (h : k + n ≤ 10) :
    (transducer params).run (.head k) ((List.range' k n).map fun i => plain (ws i)) =
        .head (k + n) ∧
      (transducer params).emit (.head k) ((List.range' k n).map fun i => plain (ws i)) = [] := by
  induction n generalizing k with
  | zero => exact ⟨rfl, rfl⟩
  | succ n ih =>
    have hne : k ≠ 10 := by omega
    have hnext : (transducer params).next (.head k) (plain (ws k)) = .head (k + 1) := by
      simp [transducer, Phase.next, plain, hne]
    have hout : (transducer params).out (.head k) (plain (ws k)) = none := rfl
    obtain ⟨hrun, hemit⟩ := ih (k + 1) (by omega)
    rw [List.range'_succ, List.map_cons, Mealy.run_cons, Transducer.emit_cons, hnext, hout, hrun,
      hemit, Nat.add_right_comm]
    exact ⟨rfl, rfl⟩

theorem run_headBeats (q : Packet) :
    (transducer params).run .invalid (headBeats q) = .data true (decide (q.ipv4V = 0)) ∧
      (transducer params).emit .invalid (headBeats q) = [] := by
  have htype := headWord_type q
  have hbypass : (hType q != ipv4) = decide (q.ipv4V = 0) := by
    by_cases h : q.ipv4V = 0
    · rw [hType, if_neg (not_not_intro h), decide_eq_true h]
      rfl
    · rw [hType, if_pos h, decide_eq_false h]
      rfl
  have htpic : (hType q == tpic) = false := by
    rw [hType]
    split <;> rfl
  have hfirst : (transducer params).next .invalid ⟨false, true, headWord q 0, false, 2⟩ = .head 1 :=
    rfl
  have hsilent : (transducer params).out .invalid ⟨false, true, headWord q 0, false, 2⟩ = none :=
    rfl
  obtain ⟨hrun, hemit⟩ := run_head (headWord q) 9 1 (Nat.le_refl 10)
  rw [headBeats, Mealy.run_cons, Transducer.emit_cons, hfirst, hsilent]
  by_cases h : q.hasVtag ≠ 0
  · have htag := headWord_tag h
    rw [MacTb.headLen, if_pos h] at *
    have hsplit : List.range' 1 (26 / 2 - 1) = List.range' 1 9 ++ [10, 11, 12] := rfl
    rw [hsplit, List.map_append, Mealy.run_append, Transducer.emit_append, hrun, hemit]
    simp [transducer, Transducer.emit, Phase.next, Phase.out, plain, params, htag, htype, hbypass]
  · rw [MacTb.headLen, if_neg h] at *
    have hsplit : List.range' 1 (22 / 2 - 1) = List.range' 1 9 ++ [10] := rfl
    rw [hsplit, List.map_append, Mealy.run_append, Transducer.emit_append, hrun, hemit]
    simp [transducer, Transducer.emit, Phase.next, Phase.out, plain, htype, htpic, hbypass]

theorem along_packet (q : Packet) : (transducer params).Along StartOk .invalid
    (headBeats q ++ (innerWords q).map plain ++ [lastBeat q]) := by
  have hquiet (x : Phase) (bs : List Beat) (h : ∀ b ∈ bs, b.start = false) :
      (transducer params).Along StartOk x bs :=
    Mealy.along_of_forall _ (fun _ b hb hs => Bool.noConfusion ((h b hb).symm.trans hs)) x
  refine ⟨fun _ => rfl, hquiet _ ((List.range' 1 (MacTb.headLen q / 2 - 1)).map
    (fun i => plain (headWord q i)) ++ (innerWords q).map plain ++ [lastBeat q]) ?_⟩
  intro b hb
  rw [List.append_assoc, List.mem_append, List.mem_append, List.mem_map, List.mem_map,
    List.mem_singleton] at hb
  obtain ⟨_, _, rfl⟩ | ⟨_, _, rfl⟩ | rfl := hb <;> rfl

theorem run_inner (first bypass : Bool) (ws : List Word) : ∃ first',
    (transducer params).run (.data first bypass) (ws.map plain) = .data first' bypass := by
  induction ws generalizing first with
  | nil => exact ⟨first, rfl⟩
  | cons w ws ih => exact ih false

def handed (q : Packet) : List Ipv4Rx.Beat :=
  if q.ipv4V = 0 then []
  else (innerWords q ++ [q.last]).mapIdx fun k w =>
    ⟨decide (k = 0), w, if k = (innerWords q).length then BitVec.ofNat 2 (min q.l 2) else 2⟩

theorem emit_bypassed (q : Packet) (first : Bool) (ws : List Word) :
    (transducer params).emit (.data first true) (ws.map plain ++ [lastBeat q]) = [] := by
  induction ws generalizing first with
  | nil => rfl
  | cons w ws ih => exact ih false

theorem emit_data (q : Packet) (first : Bool) (ws : List Word) :
    (transducer params).emit (.data first false) (ws.map plain ++ [lastBeat q]) =
      (ws ++ [q.last]).mapIdx fun k w =>
        ⟨first && decide (k = 0), w, if k = ws.length then BitVec.ofNat 2 (min q.l 2) else 2⟩ := by
  induction ws generalizing first with
  | nil => cases first <;> rfl
  | cons w ws ih =>
    have hhead : (transducer params).emit (.data first false)
        ((w :: ws).map plain ++ [lastBeat q]) = ⟨first, w, 2⟩ ::
          (transducer params).emit (.data false false) (ws.map plain ++ [lastBeat q]) := rfl
    rw [hhead, ih, List.cons_append, List.mapIdx_cons]
    simp

theorem emit_packet (q : Packet) : (transducer params).emit .invalid
    (headBeats q ++ (innerWords q).map plain ++ [lastBeat q]) = handed q := by
  obtain ⟨hrun, hemit⟩ := run_headBeats q
  rw [List.append_assoc, Transducer.emit_append, hrun, hemit, List.nil_append, handed]
  by_cases h : q.ipv4V = 0
  · rw [if_pos h, decide_eq_true h, emit_bypassed]
  · rw [if_neg h, decide_eq_false h, emit_data]
    simp only [Bool.true_and]

theorem run_packet (q : Packet) : (transducer params).run .invalid
    (headBeats q ++ (innerWords q).map plain ++ [lastBeat q]) = .invalid := by
  obtain ⟨first, hinner⟩ := run_inner true (decide (q.ipv4V = 0)) (innerWords q)
  rw [Mealy.run_append, Mealy.run_append, (run_headBeats q).1, hinner]
  rfl

theorem bench_run (s : State) (ts : List Tick) :
    bench.run s ts = (machine params).run s (ts.map Tick.drive) := by
  induction ts generalizing s with
  | nil => rfl
  | cons t ts ih => exact ih _

theorem sim_inner (q : Packet) (w : Word) (h : Sim params s (.data first bypass)) :
    Sim params (next params true s (innerTick q w).drive) (.data false bypass) := by
  have hbeat : beat (innerTick q w).drive = some (plain w) := rfl
  exact h.step hbeat fun hs => Bool.noConfusion hs

theorem holds_inner (q : Packet) (w : Word) (h : Sim params s (.data first bypass)) :
    Holds s (innerTick q w) ↔ (if bypass then 0 else 1 : Int) = q.ipv4V := by
  obtain ⟨_, _, hdata, _, hbypass⟩ := sim_inner q w h
  have hvalid : (bench.out s (innerTick q w)).validO = !bypass := by
    simp only [bench, out, validO, dataLiteV, hdata, hbypass]
    cases bypass <;> rfl
  have hcheck : (innerTick q w).check = some q.ipv4V := rfl
  rw [Holds, hvalid, hcheck]
  constructor
  · intro hv
    rw [← hv _ rfl]
    cases bypass <;> rfl
  · rintro hv v ⟨⟩
    rw [← hv]
    cases bypass <;> rfl

theorem along_inner (q : Packet) (ws : List Word) (h : Sim params s (.data first bypass)) :
    bench.Along Holds s (ws.map (innerTick q)) ↔
      ws = [] ∨ (if bypass then 0 else 1 : Int) = q.ipv4V := by
  induction ws generalizing s first with
  | nil => simp
  | cons w ws ih =>
    have hsim : Sim params (bench.next s (innerTick q w)) (.data false bypass) := sim_inner q w h
    rw [List.map_cons, Mealy.along_cons, holds_inner q w h, ih hsim]
    constructor
    · rintro ⟨hv, _⟩
      exact .inr hv
    · rintro (hnil | hv)
      · exact absurd hnil (List.cons_ne_nil w ws)
      · exact ⟨hv, .inr hv⟩

/-- A packet that meets its assertions: the type flag is a truth value, unless nothing is
asserted. -/
def Met (q : Packet) : Prop := 4 ≤ q.l → q.ipv4V = 0 ∨ q.ipv4V = 1

theorem along_sendPacket (q : Packet) (h : Sim params s .invalid) :
    bench.Along Holds s (sendPacket q) ↔ Met q := by
  have hquiet (s : State) (ts : List Tick) (hts : ∀ t ∈ ts, t.check = none) :
      bench.Along Holds s ts := by
    apply Mealy.along_of_forall
    intro s t ht v hv
    rw [hts t ht] at hv
    cases hv
  have hok := along_packet q
  rw [List.append_assoc, Mealy.along_append] at hok
  have hhead : Sim params (bench.run s (headTicks q)) (.data true (decide (q.ipv4V = 0))) := by
    rw [bench_run, ← (run_headBeats q).1, ← filterMap_head]
    apply (follows params).run h
    rw [filterMap_head]
    exact hok.1
  have hsize : innerWords q = [] ↔ q.l < 4 := by
    rw [innerWords, List.map_eq_nil_iff, List.range_eq_nil]
    omega
  have hflag : (if decide (q.ipv4V = 0) = true then 0 else 1 : Int) = q.ipv4V ↔
      q.ipv4V = 0 ∨ q.ipv4V = 1 := by
    by_cases h : q.ipv4V = 0
    · simp [h]
    · simp only [h, decide_false, Bool.false_eq_true, if_false, false_or]
      exact eq_comm
  rw [sendPacket_eq, Mealy.along_append, Mealy.along_append, along_inner q _ hhead, hsize, hflag,
    Met]
  constructor
  · rintro ⟨⟨_, hinner⟩, _⟩ hlong
    exact hinner.resolve_left (Nat.not_lt.2 hlong)
  · intro hmet
    refine ⟨⟨hquiet _ _ ?_, ?_⟩, hquiet _ _ ?_⟩
    · intro t ht
      rw [headTicks, List.mem_cons, List.mem_map] at ht
      obtain rfl | ⟨_, _, rfl⟩ := ht <;> rfl
    · by_cases hlong : q.l < 4
      · exact .inl hlong
      · exact .inr (hmet (Nat.not_lt.1 hlong))
    · intro t ht
      rw [List.mem_singleton.1 ht]

def Call.Met : Call → Prop
  | .sendPacket q => MacTb.Met q
  | _ => True

def Call.handed : Call → List Ipv4Rx.Beat
  | .sendPacket q => MacTb.handed q
  | _ => []

theorem call_step (c : Call) (h : Sim params s .invalid) :
    (bench.Along Holds s c.ticks ↔ c.Met) ∧ Sim params (bench.run s c.ticks) .invalid ∧
      delivered (machine params) port s (c.ticks.map Tick.drive) = c.handed := by
  cases c with
  | idleCycle dataI lenI =>
    have hbeat : beat ⟨false, false, dataI, false, false, lenI⟩ = none := rfl
    have hout := Sim.stall_out (s := s) hbeat
    refine ⟨iff_of_true ⟨?_, trivial⟩ trivial, h.stall hbeat, ?_⟩
    · rintro v ⟨⟩
      rfl
    · exact List.filterMap_cons_none hout
  | wait i =>
    have hbeat : beat { i with validI := false } = none := rfl
    have hout := Sim.stall_out (s := s) hbeat
    refine ⟨iff_of_true ⟨?_, trivial⟩ trivial, h.stall hbeat, ?_⟩
    · rintro v ⟨⟩
    · exact List.filterMap_cons_none hout
  | sendPacket q =>
    have hok := along_packet q
    rw [← filterMap_packet] at hok
    have hrun := (follows params).run h hok
    rw [filterMap_packet, run_packet, ← bench_run] at hrun
    have hdel := (follows params).delivered_eq h hok
    rw [filterMap_packet, emit_packet] at hdel
    exact ⟨along_sendPacket q h, hrun, hdel⟩

theorem calls_run (cs : List Call) (h : Sim params s .invalid) :
    (bench.Along Holds s (cs.flatMap Call.ticks) ↔ ∀ c ∈ cs, c.Met) ∧
      delivered (machine params) port s (drives cs) = cs.flatMap Call.handed := by
  induction cs generalizing s with
  | nil => exact ⟨iff_of_true trivial (fun c hc => absurd hc List.not_mem_nil), rfl⟩
  | cons c cs ih =>
    obtain ⟨hmet, hsim, hdel⟩ := call_step c h
    obtain ⟨hrest, hrestdel⟩ := ih hsim
    rw [List.flatMap_cons, Mealy.along_append, hmet, hrest, List.forall_mem_cons]
    refine ⟨Iff.rfl, ?_⟩
    rw [drives, List.flatMap_cons, List.map_append, delivered_append, hdel, ← bench_run]
    exact congrArg (_ ++ ·) hrestdel

/-- No assertion of `mac_tb` fails in a run of its tasks iff every packet with a beat to assert on
has a truth value for `ipv4_v`; and of each packet of type IPv4 the receiver hands on `l` bytes, or
one less if `l` is odd and not 1. -/
theorem asserts_iff (s₀ : State) (i₀ : In) (cs : List Call) :
    (bench.Along Holds (reset params s₀ i₀) (cs.flatMap Call.ticks) ↔ ∀ c ∈ cs, c.Met) ∧
      delivered (machine params) port (reset params s₀ i₀) (drives cs) = cs.flatMap Call.handed :=
  calls_run cs (sim_reset params s₀ i₀)

end LowLatencyEthernet.MacTb
