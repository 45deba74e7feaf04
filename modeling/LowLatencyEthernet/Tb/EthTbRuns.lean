import LowLatencyEthernet.Beat.EthRx
import LowLatencyEthernet.Tb.EthNodes
import LowLatencyEthernet.Tb.EthTb
import LowLatencyEthernet.Tb.Segmentation

namespace LowLatencyEthernet.EthTb
set_option autoImplicit true

open Sync Tb

def gensOf (cs : List (Cycle ε)) : List (Gen ε) := cs.flatMap Cycle.gens

def macsOf (cs : List (Cycle ε)) : List MacIntf := cs.filterMap Cycle.mac

def checksOf (cs : List (Cycle ε)) : List Check := cs.filterMap Cycle.check

/-- Nothing is lost, doubled or reordered on the way through the fifos, the beats carry the bytes of
the packets, a packet is generated only when all entries before it have been driven, and the packets
are counted from one on. -/
structure Conserved (lib : EthInit ε) (cs : List (Cycle ε)) (st : State ε) : Prop where
  mac : (gensOf cs).flatMap (Gen.entries lib) = macsOf cs ++ st.tb.tv.macFifo
  data : (gensOf cs).flatMap (Gen.trans lib) =
    (checksOf cs).filterMap Check.entry ++ st.tb.tv.dataFifo
  bytes : (gensOf cs).flatMap (fun g => packetOf lib.toEthLib g.node g.draws) =
    (macsOf cs ++ st.tb.tv.macFifo).flatMap MacIntf.bytes
  fresh : ∀ k c, cs[k]? = some c → c.gens ≠ [] →
    (gensOf (cs.take k)).flatMap (Gen.entries lib) = macsOf (cs.take k)
  ids : (gensOf cs).map Gen.id =
    (List.range (gensOf cs).length).map fun k => BitVec.ofNat 32 (k + 1)

/-- A comparison with what the receive path shows. Its length is that of a full beat, always. -/
structure Check.Sound (c : Check) : Prop where
  valid : c.out.appValidO = true
  len : c.out.appLenO = 2
  asserts : c.asserts = compare (.of c.entry) c.out

/-- The receive path has seen what has been driven, and its outputs have been compared. -/
structure Observed (s₀ : EthRx.State) (cs : List (Cycle ε)) (st : State ε) : Prop where
  mEthRx : st.mEthRx = (EthRx.machine ethRxParams).run s₀ (cs.map Cycle.input)
  beats : (cs.map Cycle.input).filterMap EthRx.beat =
    (macsOf cs).filterMap fun mac => EthRx.beat (tbMac mac)
  outs : delivered (EthRx.machine ethRxParams) EthRx.port s₀ (cs.map Cycle.input) =
    (checksOf cs).filterMap fun c => EthRx.port c.out
  checks : ∀ c ∈ checksOf cs, c.Sound

/-- The simulation between two clock cycles. -/
structure Inv (seed : BitVec 16) (lib : EthInit ε) (Is : EthArgs → ε → Prop) (s₀ : EthRx.State)
    (cs : List (Cycle ε)) (st : State ε) : Prop where
  conserved : Conserved lib cs st
  observed : Observed s₀ cs st
  senders : ∀ g ∈ gensOf cs, g.Sound seed Is
  pktId : st.tb.tv.pktId = BitVec.ofNat 32 (gensOf cs).length
  nodes : NodesAre seed Is nodeCnt st.tb.tv.eth

theorem posedge_valid {st : State ε} (h : (EthRx.out st.mEthRx i).appValidO = true) :
    posedge st i = (some ⟨EthRx.out st.mEthRx i, st.tb.tv.dataFifo.head?,
        compare (.of st.tb.tv.dataFifo.head?) (EthRx.out st.mEthRx i)⟩,
      ⟨(tbUdpDataRx st.tb).2, (EthRx.machine ethRxParams).next st.mEthRx i⟩) := by
  simp only [posedge, h, ↓reduceIte]
  rfl

theorem posedge_silent {st : State ε} (h : ¬ (EthRx.out st.mEthRx i).appValidO = true) :
    posedge st i = (none, ⟨st.tb, (EthRx.machine ethRxParams).next st.mEthRx i⟩) := by
  simp only [posedge, h]
  rfl

/-- What the clock edge does. -/
structure Clocked (st : State ε) (i : EthRx.In) (check : Option Check) (st' : State ε) : Prop where
  mEthRx : st'.mEthRx = (EthRx.machine ethRxParams).next st.mEthRx i
  macFifo : st'.tb.tv.macFifo = st.tb.tv.macFifo
  eth : st'.tb.tv.eth = st.tb.tv.eth
  pktId : st'.tb.tv.pktId = st.tb.tv.pktId
  dataFifo : st.tb.tv.dataFifo = check.toList.filterMap Check.entry ++ st'.tb.tv.dataFifo
  out : (EthRx.port (EthRx.out st.mEthRx i)).toList =
    check.toList.filterMap fun c => EthRx.port c.out
  sound : ∀ c ∈ check, c.Sound
  missing : ∀ c ∈ check, c.entry = none → st'.tb.tv.dataFifo = []

theorem posedge_clocked (st : State ε) (i : EthRx.In) :
    Clocked st i (posedge st i).1 (posedge st i).2 := by
  by_cases h : (EthRx.out st.mEthRx i).appValidO = true
  · rw [posedge_valid h]
    refine ⟨rfl, rfl, rfl, rfl, ?_, ?_, ?_, ?_⟩
    · cases hfifo : st.tb.tv.dataFifo <;> simp [tbUdpDataRx, hfifo]
    · simp [EthRx.port, h]
    · intro c hc
      obtain rfl := Option.some.inj hc
      exact ⟨h, rfl, rfl⟩
    · intro c hc hnone
      obtain rfl := Option.some.inj hc
      have hnil : st.tb.tv.dataFifo = [] := List.head?_eq_none_iff.1 hnone
      simp [tbUdpDataRx, hnil]
  · rw [posedge_silent h]
    have hnone (c : Check) (hc : c ∈ (none : Option Check)) : False := Option.not_mem_none c hc
    refine ⟨rfl, rfl, rfl, rfl, rfl, ?_, fun c hc => (hnone c hc).elim,
      fun c hc => (hnone c hc).elim⟩
    simp [EthRx.port, h]

theorem filterMap_concat (f : α → Option β) (l : List α) (a : α) :
    (l ++ [a]).filterMap f = l.filterMap f ++ (f a).toList := by
  cases h : f a <;> simp [h]

theorem gensOf_concat (cs : List (Cycle ε)) (c : Cycle ε) :
    gensOf (cs ++ [c]) = gensOf cs ++ c.gens := by
  rw [gensOf, List.flatMap_append, List.flatMap_singleton]
  rfl

theorem macsOf_concat (cs : List (Cycle ε)) (c : Cycle ε) :
    macsOf (cs ++ [c]) = macsOf cs ++ c.mac.toList := filterMap_concat _ _ _

theorem checksOf_concat (cs : List (Cycle ε)) (c : Cycle ε) :
    checksOf (cs ++ [c]) = checksOf cs ++ c.check.toList := filterMap_concat _ _ _

section

variable {seed : BitVec 16} {lib : EthInit ε} {Is : EthArgs → ε → Prop} {s₀ : EthRx.State}
  {cs : List (Cycle ε)} {c : Cycle ε} {st st' : State ε} {tb : TbState ε}

theorem bytes_entries (lib : EthInit ε) (g : Gen ε) :
    (g.entries lib).flatMap MacIntf.bytes = packetOf lib.toEthLib g.node g.draws := by
  rw [Gen.entries, List.flatMap_append, bytes_beatsOf, bytes_idlesOf, List.append_nil]

theorem bytes_of_mac {gs : List (Gen ε)} (h : gs.flatMap (Gen.entries lib) = macs) :
    gs.flatMap (fun g => packetOf lib.toEthLib g.node g.draws) = macs.flatMap MacIntf.bytes := by
  rw [← h, List.flatMap_assoc]
  exact List.flatMap_congr fun g _ => (bytes_entries lib g).symm

theorem Conserved.step (h : Conserved lib cs st)
    (hp : st.tb.tv.pktId = BitVec.ofNat 32 (gensOf cs).length)
    (hd : Drives lib Is seed st.tb c.gens c.mac tb)
    (hc : Clocked { st with tb := tb } c.input c.check st') : Conserved lib (cs ++ [c]) st' := by
  have hmac : (gensOf (cs ++ [c])).flatMap (Gen.entries lib) =
      macsOf (cs ++ [c]) ++ st'.tb.tv.macFifo := by
    rw [gensOf_concat, macsOf_concat, List.flatMap_append, h.mac, List.append_assoc, hd.macFifo,
      hc.macFifo, List.append_assoc]
  refine ⟨hmac, ?data, bytes_of_mac hmac, ?fresh, ?ids⟩
  case data =>
    have hdata : tb.tv.dataFifo = _ := hc.dataFifo
    rw [gensOf_concat, checksOf_concat, List.flatMap_append, h.data, List.append_assoc,
      ← hd.dataFifo, hdata, List.filterMap_append, List.append_assoc]
  case fresh =>
    intro k d hk hne
    rcases Nat.lt_trichotomy k cs.length with hlt | rfl | hgt
    · rw [List.getElem?_append_left hlt] at hk
      rw [List.take_append_of_le_length (Nat.le_of_lt hlt)]
      exact h.fresh k d hk hne
    · rw [List.getElem?_concat_length] at hk
      cases hk
      rw [List.take_left, h.mac, hd.fresh hne, List.append_nil]
    · rw [List.getElem?_eq_none (by rw [List.length_append]; exact hgt)] at hk
      cases hk
  case ids =>
    have hadd (k : Nat) : st.tb.tv.pktId + BitVec.ofNat 32 (k + 1) =
        BitVec.ofNat 32 ((gensOf cs).length + k + 1) := by
      rw [hp, ← BitVec.ofNat_add, Nat.add_assoc]
    rw [gensOf_concat, List.map_append, h.ids, hd.ids, List.length_append, List.range_add,
      List.map_append, List.map_map]
    simp only [hadd, Function.comp_def]

theorem Observed.step (h : Observed s₀ cs st)
    (hb : EthRx.beat c.input = c.mac.bind fun mac => EthRx.beat (tbMac mac))
    (hc : Clocked { st with tb := tb } c.input c.check st') : Observed s₀ (cs ++ [c]) st' where
  mEthRx := by
    rw [hc.mEthRx, List.map_append, Mealy.run_append, ← h.mEthRx]
    rfl
  beats := by
    rw [List.map_append, List.filterMap_append, h.beats, macsOf_concat, List.filterMap_append]
    congr 1
    cases hm : c.mac with
    | none =>
      rw [hm] at hb
      exact List.filterMap_cons_none hb
    | some mac =>
      rw [hm] at hb
      have hb' : EthRx.beat c.input = EthRx.beat (tbMac mac) := hb
      simp [List.filterMap_cons, hb']
  outs := by
    rw [List.map_append, delivered_append, h.outs, checksOf_concat, List.filterMap_append,
      ← h.mEthRx, ← hc.out, List.map_singleton, delivered_cons]
    exact congrArg _ (List.append_nil _)
  checks d hd := by
    rw [checksOf_concat, List.mem_append] at hd
    rcases hd with hd | hd
    · exact h.checks d hd
    · exact hc.sound d (Option.mem_toList.1 hd)

theorem Inv.step (h : Inv seed lib Is s₀ cs st) (hd : Drives lib Is seed st.tb c.gens c.mac tb)
    (hb : EthRx.beat c.input = c.mac.bind fun mac => EthRx.beat (tbMac mac))
    (hc : Clocked { st with tb := tb } c.input c.check st') :
    Inv seed lib Is s₀ (cs ++ [c]) st' where
  conserved := h.conserved.step h.pktId hd hc
  observed := h.observed.step hb hc
  senders g hg := by
    rw [gensOf_concat, List.mem_append] at hg
    exact hg.elim (h.senders g) (hd.senders g)
  pktId := by
    have hpkt : st'.tb.tv.pktId = tb.tv.pktId := hc.pktId
    rw [hpkt, hd.pktId, h.pktId, gensOf_concat, List.length_append, BitVec.ofNat_add]
  nodes := by
    have heth : st'.tb.tv.eth = tb.tv.eth := hc.eth
    rw [heth]
    exact hd.nodes

/-- An entry is missing in a cycle only when all that are expected have been taken. -/
def Missing (c : Cycle ε) (st : State ε) : Prop :=
  ∀ d ∈ c.check, d.entry = none → st.tb.tv.dataFifo = []

theorem step_spec (hk : lib.Keeps Is) (h : Inv seed lib Is s₀ cs st) (i : Nat) (x : EthRx.In) :
    ∃ c st', step seed lib i x st = some (c, st') ∧ Inv seed lib Is s₀ (cs ++ [c]) st' ∧
      Missing c st' := by
  by_cases hi : i % 33 = 0
  · have hc := posedge_clocked st (invalidCycle x)
    refine ⟨⟨[], none, invalidCycle x, (posedge st (invalidCycle x)).1⟩, _, ?_,
      h.step (drives_nothing h.nodes) rfl hc, hc.missing⟩
    rw [EthTb.step, if_pos hi]
  · obtain ⟨gens, mac, tb, hrun, hd⟩ := tbMacRx_spec hk h.nodes
    have hc := posedge_clocked { st with tb := tb } (tbMac mac)
    refine ⟨⟨gens, some mac, tbMac mac, (posedge { st with tb := tb } (tbMac mac)).1⟩, _, ?_,
      h.step hd rfl hc, hc.missing⟩
    rw [EthTb.step, if_neg hi, hrun]
    rfl

/-- What holds before the first cycle and is kept by every cycle holds of all that has happened. -/
structure Kept (seed : BitVec 16) (lib : EthInit ε) (Is : EthArgs → ε → Prop) (s₀ : EthRx.State)
    (P : List (Cycle ε) → Prop) : Prop where
  nil : P []
  concat : ∀ {cs c st}, Inv seed lib Is s₀ (cs ++ [c]) st → Missing c st → P cs → P (cs ++ [c])

variable {P : List (Cycle ε) → Prop}

theorem loop_spec (hk : lib.Keeps Is) (hP : Kept seed lib Is s₀ P) (h : Inv seed lib Is s₀ cs st)
    (hcs : P cs) (i : Nat) (xs : List EthRx.In) : ∃ cs' st',
      loop seed lib i xs st = some (cs', st') ∧ cs'.length = xs.length ∧
        Inv seed lib Is s₀ (cs ++ cs') st' ∧ P (cs ++ cs') := by
  induction xs generalizing cs st i with
  | nil =>
    refine ⟨[], st, rfl, rfl, ?_⟩
    rw [List.append_nil]
    exact ⟨h, hcs⟩
  | cons x xs ih =>
    obtain ⟨c, st₁, hstep, h₁, hm⟩ := step_spec hk h i x
    obtain ⟨cs', st', hloop, hlen, h'⟩ := ih h₁ (hP.concat h₁ hm hcs) (i + 1)
    refine ⟨c :: cs', st', ?_, congrArg Nat.succ hlen, ?_⟩
    · rw [loop, hstep]
      simp only [Option.bind_eq_bind, Option.bind_some, hloop]
    · rwa [List.append_assoc] at h'

variable (order : {as : List RandArg // as.Perm RandArg.all})

theorem init_spec (hk : lib.Keeps Is) (m₀ : EthRx.State) (x₀ x₁ : EthRx.In) : ∃ c st,
    init seed lib order m₀ x₀ x₁ = some (c, st) ∧
      Inv seed lib Is (EthRx.reset ethRxParams m₀ x₀) [c] st ∧ Missing c st := by
  have hl := live_statics seed
  have h₀ : Inv seed lib Is (EthRx.reset ethRxParams m₀ x₀) []
      ⟨⟨(initTv seed lib order ⟨false, 0⟩).1, (initTv seed lib order ⟨false, 0⟩).2⟩,
        EthRx.reset ethRxParams m₀ x₀⟩ := by
    refine ⟨⟨rfl, rfl, rfl, fun k c hc => ?_, rfl⟩, ⟨rfl, rfl, rfl, fun c hc => ?_⟩,
      fun g hg => ?_, rfl, initTv_spec hk hl⟩
    · exact absurd hc (Option.some_ne_none c).symm
    · exact absurd hc List.not_mem_nil
    · exact absurd hg List.not_mem_nil
  obtain ⟨g, tb, hrun, hg⟩ := initTb_spec order hk hl
  have hc := posedge_clocked ⟨tb, EthRx.reset ethRxParams m₀ x₀⟩ (setRxIdle x₁)
  refine ⟨_, _, ?_, h₀.step (c := ⟨[g], none, setRxIdle x₁, _⟩) (hg.drives rfl) rfl hc, hc.missing⟩
  rw [init, hrun]
  rfl

theorem run_spec (hk : lib.Keeps Is) (m₀ : EthRx.State) (x₀ x₁ : EthRx.In)
    (hP : Kept seed lib Is (EthRx.reset ethRxParams m₀ x₀) P) (xs : List EthRx.In) : ∃ cs st,
      run seed lib order m₀ x₀ x₁ xs = some (cs, st) ∧ cs.length = xs.length + 1 ∧
        Inv seed lib Is (EthRx.reset ethRxParams m₀ x₀) cs st ∧ P cs := by
  obtain ⟨c, st₁, hinit, h₁, hm⟩ := init_spec order hk m₀ x₀ x₁
  have hc : P ([] ++ [c]) := hP.concat h₁ hm hP.nil
  obtain ⟨cs, st, hloop, hlen, h⟩ := loop_spec hk hP h₁ hc 0 xs
  refine ⟨c :: cs, st, ?_, congrArg Nat.succ hlen, h⟩
  rw [run, hinit]
  simp only [Option.bind_eq_bind, Option.bind_some, hloop]

end

/-- In every simulation all assertions of the test bench hold, its loops end, and what it drives and
expects is what its packets make. -/
theorem run_conserved (seed : BitVec 16) (lib : EthInit ε)
    (order : {as : List RandArg // as.Perm RandArg.all}) (m₀ : EthRx.State) (x₀ x₁ : EthRx.In)
    (xs : List EthRx.In)
    (hlong : ∀ node data, packetLenMin ≤ data.length → data.length < TbRand.packetLenMax →
      2 < (lib.writeEthPacket (lib.updateEthPacketData node data)).length) :
    ∃ cs st, run seed lib order m₀ x₀ x₁ xs = some (cs, st) ∧ cs.length = xs.length + 1 ∧
      Conserved lib cs st := by
  have hk : lib.Keeps fun _ _ => True :=
    ⟨fun _ => trivial, fun _ _ => trivial, fun data _ hmin hmax => hlong _ data hmin hmax⟩
  obtain ⟨cs, st, hrun, hlen, h, -⟩ :=
    run_spec (P := fun _ => True) order hk m₀ x₀ x₁ ⟨trivial, fun _ _ _ => trivial⟩ xs
  exact ⟨cs, st, hrun, hlen, h.conserved⟩

theorem run_conserved_sample : ∃ cs st,
    run 10 sampleInit ⟨RandArg.all, .refl _⟩ default default default [default, default] =
      some (cs, st) ∧ cs.length = 3 ∧ Conserved sampleInit cs st :=
  run_conserved 10 sampleInit ⟨RandArg.all, .refl _⟩ default default default [default, default]
    fun node data hmin hmax => sampleInit_writes.keeps.long data (rfl : node.1 = node.1) hmin hmax

end LowLatencyEthernet.EthTb
