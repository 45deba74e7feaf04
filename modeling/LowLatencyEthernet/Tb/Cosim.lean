import LowLatencyEthernet.Tb.EthTbRuns
import LowLatencyEthernet.Tb.SentFrames

namespace LowLatencyEthernet
set_option autoImplicit true

open Sync

namespace EthRx

theorem next_free (hv : v ≠ .corrupt) : gate.next .free v = .free := by
  cases v with
  | corrupt => exact absurd rfl hv
  | filtered => rfl
  | accepted bs => rfl

theorem emit_frames {fs : List (List MacRx.Beat × List MacRx.Beat)}
    (hfs : ∀ x ∈ fs, Consistent p x.1 ∧ verdict p x.1 ≠ .corrupt ∧ ∀ b ∈ x.2, MacRx.Idle b)
    (hy : GateRel .free y) :
    (transducer p).Along Ok (.invalid, y) (fs.flatMap fun x => x.1 ++ x.2) ∧
      (transducer p).emit (.invalid, y) (fs.flatMap fun x => x.1 ++ x.2) =
        fs.flatMap fun x => gate.out .free (verdict p x.1) := by
  induction fs generalizing y with
  | nil => exact ⟨True.intro, rfl⟩
  | cons x fs ih =>
    obtain ⟨hc, hv, hidle⟩ := hfs x List.mem_cons_self
    obtain ⟨hg, hout⟩ := gate_step hc hy
    rw [next_free hv] at hg
    have hal := ((rests p).frame (x := (.invalid, y)) rfl hc.wellFormed).1
    have hrun : (transducer p).run (.invalid, y) x.1 = _ := frame_run hc.wellFormed
    have hemit : (transducer p).emit (.invalid, y) x.1 = _ :=
      (frame_emit hc.wellFormed).trans hout
    obtain ⟨hgal, hgrun, -⟩ := (rests p).gap
      (x := (.invalid, (stack p).run y (MacRx.handed (macParams p) x.1))) rfl hidle
    have hgemit := (rests p).gap_emit
      (x := (.invalid, (stack p).run y (MacRx.handed (macParams p) x.1))) rfl hidle
    obtain ⟨hral, hremit⟩ := ih (fun z hz => hfs z (List.mem_cons_of_mem _ hz)) hg
    rw [List.flatMap_cons, List.flatMap_cons]
    constructor
    · rw [Mealy.along_append, Mealy.along_append, Mealy.run_append, hrun, hgrun]
      exact ⟨⟨hal, hgal⟩, hral⟩
    · rw [Transducer.emit_append, Transducer.emit_append, Mealy.run_append, hrun, hgrun, hemit,
        hgemit, hremit, List.append_nil]

end EthRx

namespace EthTb

open Tb

/-- An entry expects what a beat of the application shows. -/
structure Matches (t : TransData) (a : AppBeat) : Prop where
  valid : t.state ≠ .invalid
  start : t.state = .start ↔ a.start = true
  term : t.state = .term ↔ a.term = true
  len : t.len = (if a.term then a.termLen else 2).setWidth 8
  lenCases : t.len = 1 ∨ t.len = 2
  low : lane0 t.data = lane0 a.data
  high : t.len = 2 → lane1 t.data = lane1 a.data

theorem head_pack {cs : List Byte} (hne : cs ≠ []) (hw : (pack x (cs ++ more))[0]? = some w) :
    lane0 w = lane0 (segWord cs) ∧ (2 ≤ cs.length → w = segWord cs) := by
  rcases cs with _ | ⟨a, _ | ⟨b, cs⟩⟩
  · exact absurd rfl hne
  · refine ⟨?_, fun h => absurd h (Nat.not_succ_le_self 1)⟩
    obtain ⟨c, hc⟩ : ∃ c, (pack x ([a] ++ more))[0]? = some (lanes a c) := by
      cases more with
      | nil => exact ⟨x, rfl⟩
      | cons c more => exact ⟨c, rfl⟩
    obtain rfl := Option.some.inj (hc.symm.trans hw)
    rw [segWord, lane0_lanes, lane0_lanes]
  · obtain rfl := Option.some.inj hw
    exact ⟨rfl, fun _ => rfl⟩

theorem getElem?_pack_append {bs : List Byte} (hk : k < segCount bs.length)
    (hw : (pack x (bs ++ more))[k]? = some w) :
    lane0 w = lane0 (segWord (bs.drop (2 * k))) ∧
      (segLen bs.length k = 2 → lane1 w = lane1 (segWord (bs.drop (2 * k)))) := by
  have hlt := seg_lt hk
  have hlen : (bs.drop (2 * k)).length = bs.length - 2 * k := List.length_drop
  have hne : bs.drop (2 * k) ≠ [] := List.ne_nil_of_length_pos (by omega)
  have hhead : (pack x (bs.drop (2 * k) ++ more))[0]? = some w := by
    rw [← List.drop_append_of_le_length (Nat.le_of_lt hlt), ← pack_drop, List.getElem?_drop]
    exact hw
  obtain ⟨hlow, hfull⟩ := head_pack hne hhead
  refine ⟨hlow, fun h2 => ?_⟩
  have hge : 2 ≤ (bs.drop (2 * k)).length := by
    unfold segLen at h2
    omega
  rw [hfull hge]

theorem getElem?_delivery (d : EthRx.Datagram p) (x : Byte)
    (ha : (EthRx.delivery (d.packetWords x))[k]? = some a) :
    k < segCount d.payload.length ∧ a.start = decide (k = 0) ∧
      a.term = decide (k + 1 = segCount d.payload.length) ∧
      a.termLen = (if d.payload.length % 2 = 0 then 2 else 1) ∧
      (pack x (d.payload ++ (d.padding ++ d.fcs)))[k]? = some a.data := by
  have hpar : (28 + 2 * d.options.length + d.payload.length) % 2 = d.payload.length % 2 := by omega
  have hlen : Ipv4Rx.termLen (d.packetWords x) = if d.payload.length % 2 = 0 then 2 else 1 := by
    rw [Ipv4Rx.termLen, d.totLen_packetWords, d.toNat_totLen, hpar]
  have hterm : Ipv4Rx.headWords (d.packetWords x) + 4 + k + 1 =
      Ipv4Rx.packetWords (d.packetWords x) ↔
      k + 1 = segCount d.payload.length := by
    rw [d.headWords_eq, d.packetWords_eq, segCount]
    omega
  rw [EthRx.delivery, d.payloadWords_eq, List.getElem?_mapIdx, Option.map_eq_some_iff] at ha
  obtain ⟨w, hw, rfl⟩ := ha
  obtain ⟨hlt, -⟩ := List.getElem?_eq_some_iff.1 hw
  rw [List.length_take] at hlt
  have hk : k < (d.payload.length + 1) / 2 := by omega
  rw [List.getElem?_take_of_lt hk] at hw
  exact ⟨hk, rfl, decide_eq_decide.2 hterm, hlen, hw⟩

theorem length_delivery (d : EthRx.Datagram p) (x : Byte) :
    (EthRx.delivery (d.packetWords x)).length = segCount d.payload.length :=
  (d.delivers x).length

theorem transStateAt_start_iff : transStateAt len k = .start ↔ k = 0 := by
  unfold transStateAt
  split
  · exact iff_of_true rfl ‹_›
  · refine iff_of_false ?_ ‹_›
    split <;> decide

theorem transStateAt_term_iff (hn : 1 < segCount len) :
    transStateAt len k = .term ↔ k + 1 = segCount len := by
  unfold transStateAt
  by_cases h0 : k = 0
  · have hne : k + 1 ≠ segCount len := by omega
    rw [if_pos h0]
    exact iff_of_false (by decide) hne
  · rw [if_neg h0]
    split
    · exact iff_of_true rfl ‹_›
    · exact iff_of_false (by decide) ‹_›

theorem transStateAt_valid (len k : Nat) : transStateAt len k ≠ .invalid := by
  unfold transStateAt
  split
  · decide
  · split <;> decide

theorem segLen_eq (hk : k < segCount len) : segLen len k =
    if k + 1 = segCount len then (if len % 2 = 0 then 2 else 1) else 2 := by
  unfold segCount at *
  unfold segLen
  split
  · split <;> omega
  · omega

theorem matches_delivery (d : EthRx.Datagram p) (x : Byte) (id : DebugId)
    (hlong : 2 < d.payload.length) : List.Forall₂ Matches
      ((List.range (segCount d.payload.length)).map (transAt d.payload id))
      (EthRx.delivery (d.packetWords x)) := by
  rw [List.forall₂_iff_get]
  refine ⟨?_, fun k h₁ h₂ => ?_⟩
  · rw [List.length_map, List.length_range, length_delivery]
  have ha : (EthRx.delivery (d.packetWords x))[k]? =
      some ((EthRx.delivery (d.packetWords x)).get ⟨k, h₂⟩) := List.getElem?_eq_getElem h₂
  have ht : ((List.range (segCount d.payload.length)).map (transAt d.payload id)).get ⟨k, h₁⟩ =
      transAt d.payload id k := by
    rw [List.get_eq_getElem, List.getElem_map, List.getElem_range]
  rw [ht]
  generalize (EthRx.delivery (d.packetWords x)).get ⟨k, h₂⟩ = a at ha
  obtain ⟨hk, hstart, hterm, hlen, hw⟩ := getElem?_delivery d x ha
  obtain ⟨hlow, hhigh⟩ := getElem?_pack_append hk hw
  have hsize : (transAt d.payload id k).len =
      (if a.term then a.termLen else 2 : BitVec 2).setWidth 8 := by
    change BitVec.ofNat 8 (segLen d.payload.length k) = _
    rw [segLen_eq hk, hterm, hlen]
    by_cases hl : k + 1 = segCount d.payload.length
    · by_cases he : d.payload.length % 2 = 0 <;> simp [hl, he]
    · simp [hl]
  constructor
  · exact transStateAt_valid _ _
  · rw [hstart, decide_eq_true_iff]
    exact transStateAt_start_iff
  · rw [hterm, decide_eq_true_iff]
    exact transStateAt_term_iff (one_lt_segCount hlong)
  · exact hsize
  · rcases segLen_cases hk with hl | hl
    · exact .inl (congrArg (BitVec.ofNat 8) hl)
    · exact .inr (congrArg (BitVec.ofNat 8) hl)
  · exact hlow.symm
  · intro h2
    refine (hhigh ?_).symm
    rw [← toNat_segLen hk]
    exact congrArg BitVec.toNat h2

theorem trans_clean (lib : EthInit ε) {g : Gen ε} (he : g.draws.hasErr = false) : g.trans lib =
    if g.nodeId ≤ 1 then
      (List.range (segCount g.draws.data.length)).map (transAt g.draws.data g.id)
    else [] := by
  have hpushed : pushedOf lib.toEthLib g.node g.draws = segCount g.draws.data.length := by
    simp [pushedOf, pushed, transErr, he]
  rw [Gen.trans, transOf, hpushed]
  rfl

/-- A frame with idle beats after it, of which the application shows what is expected. -/
structure Sent (trans : List TransData) (x : List MacRx.Beat × List MacRx.Beat) : Prop where
  consistent : EthRx.Consistent ethRxParams x.1
  verdict : EthRx.verdict ethRxParams x.1 ≠ .corrupt
  idle : ∀ b ∈ x.2, MacRx.Idle b
  shown : List.Forall₂ Matches trans (gate.out .free (EthRx.verdict ethRxParams x.1))

theorem admitted_cases {seed : BitVec 16} (hseed : seed ≠ 0) (h : Admitted seed i args) :
    (i ≤ 1 ∧ ∃ vtag, args = defaultArgs vtag) ∨ (¬ i ≤ 1 ∧ args.srcIp.extractLsb' 16 16 ≠ 0) := by
  unfold Admitted at h
  split at h
  · exact .inl ⟨by omega, _, h⟩
  · split at h
    · exact .inl ⟨by omega, _, h⟩
    · exact .inr ⟨by omega, h hseed⟩

/-- What the two default nodes send is shown as it is expected, and the other nodes are filtered. -/
theorem gen_sent {lib : EthInit ε} {g : Gen ε} {seed : BitVec 16} (hw : lib.Writes Is)
    (hseed : seed ≠ 0) (hg : g.Sound seed Is) (he : g.draws.hasErr = false) : ∃ x,
      (g.entries lib).filterMap (fun mac => EthRx.beat (tbMac mac)) = x.1 ++ x.2 ∧
        Sent (g.trans lib) x := by
  obtain ⟨args, hadm, his⟩ := hg.node
  have hlong : 2 < g.draws.data.length := Nat.lt_of_lt_of_le (by decide) g.draws.long
  obtain ⟨d, hd, hpay, hsrc, hdst⟩ := hw.write g.draws.data his
    (List.ne_nil_of_length_pos (Nat.zero_lt_of_lt hlong)) (Nat.le_of_lt hg.short)
  have hpkt : packetOf lib.toEthLib g.node g.draws = d.bytes := hd
  obtain ⟨idles, errPos, hentries, hidle⟩ := filterMap_entries lib he
  rw [hpkt] at hentries
  have hn : 1 < segCount d.bytes.length := by
    apply one_lt_segCount
    rw [d.length_bytes]
    omega
  have hf : MacRx.Carries (frameOf d.bytes errPos g.id) d.bytes := carries_frameOf hn
  have hcons : EthRx.Consistent ethRxParams (frameOf d.bytes errPos g.id) := consistent d rfl hf
  refine ⟨(frameOf d.bytes errPos g.id, idles), hentries, ?_⟩
  rw [trans_clean lib he, ← hpay]
  rw [← hpay] at hlong
  rcases admitted_cases hseed hadm with ⟨hle, vtag, hargs⟩ | ⟨hgt, hupper⟩
  · obtain ⟨x, hv⟩ := verdict_default hargs d hsrc hdst hf
    rw [if_pos hle]
    refine ⟨hcons, ?_, hidle, ?_⟩
    · rw [hv]
      exact Verdict.noConfusion
    · rw [hv]
      exact matches_delivery d x g.id hlong
  · have hv := verdict_other d rfl (hsrc ▸ hupper) hf
    rw [if_neg hgt]
    refine ⟨hcons, ?_, hidle, ?_⟩
    · rw [hv]
      exact Verdict.noConfusion
    · rw [hv]
      exact .nil

theorem gens_sent {lib : EthInit ε} {gs : List (Gen ε)} {seed : BitVec 16} (hw : lib.Writes Is)
    (hseed : seed ≠ 0) (hgs : ∀ g ∈ gs, g.Sound seed Is ∧ g.draws.hasErr = false) :
    ∃ fs : List (List MacRx.Beat × List MacRx.Beat),
      (gs.flatMap (Gen.entries lib)).filterMap (fun mac => EthRx.beat (tbMac mac)) =
          fs.flatMap (fun x => x.1 ++ x.2) ∧
        (∀ x ∈ fs, EthRx.Consistent ethRxParams x.1 ∧ EthRx.verdict ethRxParams x.1 ≠ .corrupt ∧
          ∀ b ∈ x.2, MacRx.Idle b) ∧
        List.Forall₂ Matches (gs.flatMap (Gen.trans lib))
          (fs.flatMap fun x => gate.out .free (EthRx.verdict ethRxParams x.1)) := by
  induction gs with
  | nil => exact ⟨[], rfl, fun _ hx => absurd hx List.not_mem_nil, .nil⟩
  | cons g gs ih =>
    obtain ⟨hg, he⟩ := hgs g List.mem_cons_self
    obtain ⟨x, hx, hsent⟩ := gen_sent hw hseed hg he
    obtain ⟨fs, hfs, hall, hmatch⟩ := ih fun g' hg' => hgs g' (List.mem_cons_of_mem _ hg')
    refine ⟨x :: fs, ?_, ?_, ?_⟩
    · rw [List.flatMap_cons, List.filterMap_append, hx, hfs, List.flatMap_cons]
    · intro z hz
      rcases List.mem_cons.1 hz with rfl | hz
      · exact ⟨hsent.consistent, hsent.verdict, hsent.idle⟩
      · exact hall z hz
    · rw [List.flatMap_cons, List.flatMap_cons]
      exact List.rel_append hsent.shown hmatch

def Clean (cs : List (Cycle ε)) : Prop := ∀ g ∈ gensOf cs, g.draws.hasErr = false

theorem shown_matches {lib : EthInit ε} {seed : BitVec 16} {m₀ : EthRx.State} {x₀ : EthRx.In}
    {cs : List (Cycle ε)} {st : State ε} (hw : lib.Writes Is) (hseed : seed ≠ 0)
    (h : Inv seed lib Is (EthRx.reset ethRxParams m₀ x₀) cs st) (hc : Clean cs) : ∃ rest,
      List.Forall₂ Matches ((gensOf cs).flatMap (Gen.trans lib))
        ((checksOf cs).filterMap (fun c => EthRx.port c.out) ++ rest) ∧
        (st.tb.tv.macFifo = [] → rest = []) := by
  obtain ⟨fs, hfs, hall, hmatch⟩ := gens_sent hw hseed fun g hg => ⟨h.senders g hg, hc g hg⟩
  have hs := EthRx.sim_reset ethRxParams m₀ x₀
  obtain ⟨hal, hemit⟩ := EthRx.emit_frames hall
    (EthRx.gateRel_layers (EthRx.reset ethRxParams m₀ x₀))
  -- The run is followed by a cycle for each entry that is still queued.
  have hbeats : (cs.map Cycle.input ++ st.tb.tv.macFifo.map tbMac).filterMap EthRx.beat =
      fs.flatMap fun x => x.1 ++ x.2 := by
    rw [List.filterMap_append, h.observed.beats, List.filterMap_map, ← hfs, h.conserved.mac,
      List.filterMap_append]
    rfl
  have hdel := (EthRx.follows ethRxParams).delivered_eq hs (hbeats ▸ hal)
  rw [hbeats, hemit, delivered_append, h.observed.outs] at hdel
  refine ⟨_, hdel ▸ hmatch, fun hnil => ?_⟩
  rw [hnil]
  rfl

def Full (cs : List (Cycle ε)) : Prop := ∀ c ∈ checksOf cs, c.entry.isSome = true

theorem port_isSome {c : Check} (h : c.Sound) : (EthRx.port c.out).isSome = true := by
  rw [EthRx.port, if_pos h.valid]
  rfl

theorem kept_full {lib : EthInit ε} {seed : BitVec 16} (hw : lib.Writes Is) (hseed : seed ≠ 0)
    (m₀ : EthRx.State) (x₀ : EthRx.In) :
    Kept seed lib Is (EthRx.reset ethRxParams m₀ x₀) fun cs => Clean cs → Full cs where
  nil _ c hc := absurd hc List.not_mem_nil
  concat := by
    intro cs c st h hm ih hclean d hd
    have hfull : Full cs := by
      apply ih
      intro g hg
      apply hclean
      rw [gensOf_concat]
      exact List.mem_append_left _ hg
    rw [checksOf_concat] at hd
    rcases List.mem_append.1 hd with hd | hd
    · exact hfull d hd
    by_contra hnone
    have hc : c.check = some d := Option.mem_toList.1 hd
    have hentry : d.entry = none := Option.not_isSome_iff_eq_none.1 hnone
    obtain ⟨rest, hmatch, -⟩ := shown_matches hw hseed h hclean
    have hshown := List.filterMap_length_eq_length.2 fun c hc =>
      port_isSome (h.observed.checks c hc)
    have htaken := List.filterMap_length_eq_length.2 hfull
    have hdata := h.conserved.data
    have hlen := hmatch.length_eq
    rw [hdata, hm d hc hentry, checksOf_concat, hc] at hlen
    rw [checksOf_concat, hc] at hshown
    simp only [Option.toList_some, List.filterMap_append, List.length_append, List.length_nil,
      List.filterMap_cons_none hentry, List.filterMap_nil, List.length_singleton] at hlen hshown
    omega

theorem forall_of_forall₂ {l : List γ} {f : γ → Option α} {g : γ → Option β} {R : α → β → Prop}
    (hf : ∀ c ∈ l, (f c).isSome = true) (hg : ∀ c ∈ l, (g c).isSome = true)
    (h : List.Forall₂ R (l.filterMap f ++ as) (l.filterMap g ++ bs)) :
    ∀ c ∈ l, ∃ a ∈ f c, ∃ b ∈ g c, R a b := by
  induction l with
  | nil => exact fun _ hc => absurd hc List.not_mem_nil
  | cons c l ih =>
    obtain ⟨a, ha⟩ := Option.isSome_iff_exists.1 (hf c List.mem_cons_self)
    obtain ⟨b, hb⟩ := Option.isSome_iff_exists.1 (hg c List.mem_cons_self)
    rw [List.filterMap_cons_some ha, List.filterMap_cons_some hb, List.cons_append,
      List.cons_append, List.forall₂_cons] at h
    intro d hd
    rcases List.mem_cons.1 hd with rfl | hd
    · exact ⟨a, ha, b, hb, h.1⟩
    · exact ih (fun e he => hf e (List.mem_cons_of_mem _ he))
        (fun e he => hg e (List.mem_cons_of_mem _ he)) h.2 d hd

/-- A comparison with an entry. The assertion on the length fails on the entries of a single byte,
as the output is that of a full beat, and no other assertion fails. -/
structure Check.Compares (c : Check) (t : TransData) : Prop where
  entry : c.entry = some t
  asserts : c.asserts = ⟨true, true, decide (t.len ≠ 1), true⟩
  term : t.state = .term ↔ c.out.appTermO = true
  len : t.len = (if c.out.appTermO then c.out.appTermLenO else 2).setWidth 8

theorem checkTermDataMatch_eq {t : TransData} {w : Word} (hlen : t.len = 1 ∨ t.len = 2)
    (hlow : lane0 t.data = lane0 w) (hhigh : t.len = 2 → lane1 t.data = lane1 w) :
    checkTermDataMatch (t.len.setWidth 2) t.data w = true := by
  have h0 : (w.extractLsb' (0 * 8) 8 == t.data.extractLsb' (0 * 8) 8) = true :=
    beq_iff_eq.2 hlow.symm
  rcases hlen with h1 | h2
  · rw [h1]
    exact List.all_eq_true.2 fun i hi => by
      obtain rfl := List.mem_singleton.1 hi
      exact h0
  · have h1 : (w.extractLsb' (1 * 8) 8 == t.data.extractLsb' (1 * 8) 8) = true :=
      beq_iff_eq.2 (hhigh h2).symm
    rw [h2]
    exact List.all_eq_true.2 fun i hi => by
      have hcases : i = 0 ∨ i = 1 := by
        have hlt := List.mem_range.1 hi
        have hnat : ((2 : BitVec 8).setWidth 2).toNat = 2 := by decide
        omega
      rcases hcases with rfl | rfl
      · exact h0
      · exact h1

theorem Matches.compares {c : Check} (hc : c.Sound) (he : c.entry = some t)
    (ha : EthRx.port c.out = some a) (h : Matches t a) : c.Compares t := by
  have hport : a = ⟨c.out.appStartO, c.out.appTermO, c.out.appTermLenO, c.out.appDataO⟩ := by
    rw [EthRx.port, if_pos hc.valid] at ha
    exact (Option.some.inj ha).symm
  subst hport
  refine ⟨he, ?_, h.term, h.len⟩
  have hstart : (decide (t.state = .start) == c.out.appStartO) = true := by
    rw [beq_iff_eq, Bool.eq_iff_iff, decide_eq_true_iff]
    exact h.start
  have hvalid : (decide (t.state ≠ .invalid) == c.out.appValidO) = true := by
    rw [hc.valid, decide_eq_true h.valid]
    rfl
  have hlen : (t.len.setWidth 2 == c.out.appLenO) = decide (t.len ≠ 1) := by
    rw [hc.len]
    rcases h.lenCases with h1 | h2
    · rw [h1]
      rfl
    · rw [h2]
      rfl
  have hdata := checkTermDataMatch_eq h.lenCases h.low h.high
  rw [hc.asserts, he]
  exact congr (congr (congr (congrArg Asserts.mk hvalid) hstart) hlen) hdata

/-- As long as no packet has an error, whatever comes between them, each beat of the application is
compared with the entry that was made for it, all comparisons hold but that of the length of a
single byte, and when all beats have been driven no entry is left. -/
theorem run_compares {lib : EthInit ε} (hw : lib.Writes Is) {seed : BitVec 16} (hseed : seed ≠ 0)
    (order : {as : List RandArg // as.Perm RandArg.all}) (m₀ : EthRx.State) (x₀ x₁ : EthRx.In)
    (xs : List EthRx.In) : ∃ cs st, run seed lib order m₀ x₀ x₁ xs = some (cs, st) ∧
      (Clean cs → (∀ c ∈ checksOf cs, ∃ t, c.Compares t) ∧
        (st.tb.tv.macFifo = [] → st.tb.tv.dataFifo = [])) := by
  obtain ⟨cs, st, hrun, -, h, hfull⟩ :=
    run_spec order hw.keeps m₀ x₀ x₁ (kept_full hw hseed m₀ x₀) xs
  refine ⟨cs, st, hrun, fun hclean => ?_⟩
  obtain ⟨rest, hmatch, hrest⟩ := shown_matches hw hseed h hclean
  have hports (c : Check) (hc : c ∈ checksOf cs) := port_isSome (h.observed.checks c hc)
  rw [h.conserved.data] at hmatch
  constructor
  · intro c hc
    obtain ⟨t, ht, a, ha, hta⟩ := forall_of_forall₂ (hfull hclean) hports hmatch c hc
    exact ⟨t, hta.compares (h.observed.checks c hc) ht ha⟩
  · intro hnil
    have hlen := hmatch.length_eq
    have htaken := List.filterMap_length_eq_length.2 (hfull hclean)
    have hshown := List.filterMap_length_eq_length.2 hports
    rw [hrest hnil, List.append_nil, List.length_append, htaken, hshown] at hlen
    exact List.eq_nil_of_length_eq_zero (by omega)

-- A seed whose first packet is short and has no error, and the passes that drive it.
theorem run_compares_sample : ∃ cs st,
    run 2357 sampleInit ⟨RandArg.all, .refl _⟩ default default default (List.replicate 57 default) =
        some (cs, st) ∧
      (checksOf cs).length = 25 ∧ (∀ c ∈ checksOf cs, ∃ t, c.Compares t) ∧
        st.tb.tv.dataFifo = [] := by
  obtain ⟨cs, st, hrun, h⟩ := run_compares sampleInit_writes (by decide : (2357 : BitVec 16) ≠ 0)
    ⟨RandArg.all, .refl _⟩ default default default (List.replicate 57 default)
  have hsample : (run 2357 sampleInit ⟨RandArg.all, .refl _⟩ default default default
      (List.replicate 57 default)).any (fun r => (gensOf r.1).all (fun g => !g.draws.hasErr) &&
        (r.2.tb.tv.macFifo.isEmpty && (checksOf r.1).length == 25)) = true := by
    decide +kernel
  rw [hrun, Option.any_some, Bool.and_eq_true, Bool.and_eq_true, List.all_eq_true,
    List.isEmpty_iff, beq_iff_eq] at hsample
  obtain ⟨hclean, hnil, hlen⟩ := hsample
  obtain ⟨hchecks, hdata⟩ := h fun g hg => by simpa using hclean g hg
  exact ⟨cs, st, hrun, hlen, hchecks, hdata hnil⟩

end EthTb

end LowLatencyEthernet
