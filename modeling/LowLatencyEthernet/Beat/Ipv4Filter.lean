import LowLatencyEthernet.Beat.Ipv4Packets

namespace LowLatencyEthernet.Ipv4Rx
set_option autoImplicit true

open Sync

theorem any_header (hN : headWords ws < ws.length) (j : Nat) (f : Word → Bool) :
    (header ws)[j]?.any f = (decide (j < headWords ws) && f (ws.getD j 0)) := by
  rw [header]
  by_cases hj : j < headWords ws
  · have hlt : j < ws.length := Nat.lt_trans hj hN
    simp [hj, hlt]
  · simp [hj]

theorem any_header_eq_false (hN : headWords ws < ws.length) (j : Nat) (v : Word → BitVec n)
    (x : BitVec n) : (header ws)[j]?.any (fun w => v w != x) = false ↔
      (j < headWords ws → v (ws.getD j 0) = x) := by
  rw [any_header hN]
  by_cases hj : j < headWords ws <;> simp [hj]

theorem any_header_addr (hN : headWords ws < ws.length) (j : Nat) (x : Word) :
    (header ws).dropLast[j]?.any (x != ·) = false ↔
      (j + 1 < headWords ws → ws.getD j 0 = x) := by
  have hlen : (header ws).length = headWords ws := List.length_take_of_le (Nat.le_of_lt hN)
  rw [List.getElem?_dropLast, hlen]
  by_cases hj : j < headWords ws - 1
  · have hj' : j + 1 < headWords ws := by omega
    have hj'' : j < headWords ws := by omega
    have hne : (x != ws.getD j 0) = false ↔ ws.getD j 0 = x := by
      rw [bne_eq_false_iff_eq]
      exact eq_comm
    rw [if_pos hj, any_header hN, decide_eq_true hj'', Bool.true_and, hne]
    exact ⟨fun h _ => h, fun h => h hj'⟩
  · have hj' : ¬ j + 1 < headWords ws := by omega
    rw [if_neg hj]
    simp [hj']

/-- The checks that a packet passes when it finds the counter and the filter clear: those of the
words that its own header length leaves in its header, and of each address the upper half, which is
compared with its bytes swapped. -/
structure PassesChecks (p : Params) (ws : List Word) : Prop where
  version : (ws.getD 0 0).extractLsb' 4 4 = Ipv4Rx.version
  flags : 2 ≤ (ihl ws).toNat → (ws.getD 3 0).extractLsb' 5 3 = fragFlag
  protocol : 3 ≤ (ihl ws).toNat → lane1 (ws.getD 4 0) = p.protocol
  src : p.matchSrcAddr = true → 4 ≤ (ihl ws).toNat → ws.getD 6 0 = p.srcAddr.extractLsb' 16 16
  dst : p.matchDstAddr = true → 5 ≤ (ihl ws).toNat → ws.getD 8 0 = p.dstAddr.extractLsb' 16 16

theorem filtered_header (hN : headWords ws < ws.length) :
    filtered p (header ws) = false ↔ PassesChecks p ws := by
  have hw : headWords ws = max 2 (2 * (ihl ws).toNat) := rfl
  have h0 : 0 < headWords ws := by omega
  have h3 : 3 < headWords ws ↔ 2 ≤ (ihl ws).toNat := by omega
  have h4 : 4 < headWords ws ↔ 3 ≤ (ihl ws).toNat := by omega
  have h6 : 6 + 1 < headWords ws ↔ 4 ≤ (ihl ws).toNat := by omega
  have h8 : 8 + 1 < headWords ws ↔ 5 ≤ (ihl ws).toNat := by omega
  rw [filtered]
  simp only [Bool.or_eq_false_iff, Bool.and_eq_false_imp]
  rw [any_header_eq_false hN 0 (fun w => w.extractLsb' 4 4),
    any_header_eq_false hN 3 (fun w => w.extractLsb' 5 3), any_header_eq_false hN 4 lane1,
    any_header_addr hN, any_header_addr hN, h3, h4, h6, h8]
  constructor
  · rintro ⟨⟨⟨⟨hv, hf⟩, hp⟩, hs⟩, hd⟩
    exact ⟨hv h0, hf, hp, hs, hd⟩
  · rintro ⟨hv, hf, hp, hs, hd⟩
    exact ⟨⟨⟨⟨fun _ => hv, hf⟩, hp⟩, hs⟩, hd⟩

def fragField (ws : List Word) : BitVec 16 := swapLanes (ws.getD 3 0)

def moreFragments (ws : List Word) : Bool := (fragField ws).getLsbD 13

def fragOffset (ws : List Word) : BitVec 13 := (fragField ws).extractLsb' 0 13

/-- The headers that the transport layer may see. -/
structure Admissible (p : Params) (ws : List Word) : Prop where
  version : (ws.getD 0 0).extractLsb' 4 4 = Ipv4Rx.version
  ihl : 5 ≤ (Ipv4Rx.ihl ws).toNat
  unfragmented : moreFragments ws = false ∧ fragOffset ws = 0
  protocol : lane1 (ws.getD 4 0) = p.protocol

/-- The packets that are shown though their headers are not admissible. -/
structure Leaks (p : Params) (s : State) (ws : List Word) : Prop where
  payload : headEnd s.cntQ (Ipv4Rx.ihl ws) < ws.length
  passes : Passes p s (headerFrom s ws)
  inadmissible : ¬ Admissible p ws

theorem moreFragments_of_flags (h : (ws.getD 3 0).extractLsb' 5 3 = fragFlag) :
    moreFragments ws = false := by
  have hbit := congrArg (BitVec.getLsbD · 0) h
  rw [moreFragments, fragField, swapLanes, BitVec.getLsbD_append]
  simpa [fragFlag] using hbit

theorem PassesChecks.admissible (h : PassesChecks p ws) (h5 : 5 ≤ (ihl ws).toNat)
    (ho : fragOffset ws = 0) : Admissible p ws where
  version := h.version
  ihl := h5
  unfragmented := ⟨moreFragments_of_flags (h.flags (by omega)), ho⟩
  protocol := h.protocol (by omega)

/-- Nothing but admissible packets is shown, unless the packet is one of those that leak. -/
theorem shown_admissible_iff (p : Params) (h : Offered s is ws l) :
    ((∃ u, some u ∈ answers (machine p) beat port s is) → Admissible p ws) ↔
      ¬ Leaks p (found (machine p) beat s is) ws := by
  rw [h.shown_iff p]
  constructor
  · exact fun hadm hleak => hleak.inadmissible (hadm ⟨hleak.payload, hleak.passes⟩)
  · rintro hleak ⟨hN, hpass⟩
    by_contra hadm
    exact hleak ⟨hN, hpass, hadm⟩

theorem Clear.passes_iff (h : Clear s) (hN : headWords ws < ws.length) :
    Passes p s (headerFrom s ws) ↔ PassesChecks p ws := by
  rw [h.header_eq, (h.verdicts (Nat.le_of_lt hN) p).2, filtered_header hN]

theorem Clear.leaks_iff (h : Clear s) : Leaks p s ws ↔
    headWords ws < ws.length ∧ PassesChecks p ws ∧
      ((ihl ws).toNat < 5 ∨ fragOffset ws ≠ 0) := by
  constructor
  · rintro ⟨hN, hpass, hadm⟩
    rw [h.headEnd_eq] at hN
    have hpass' := (h.passes_iff hN).1 hpass
    refine ⟨hN, hpass', ?_⟩
    by_contra hno
    rw [not_or, Nat.not_lt, not_not] at hno
    exact hadm (hpass'.admissible hno.1 hno.2)
  · rintro ⟨hN, hpass, hbad⟩
    refine ⟨by rwa [h.headEnd_eq], (h.passes_iff hN).2 hpass, fun hadm => ?_⟩
    rcases hbad with hlt | hne
    · exact absurd hadm.ihl (Nat.not_le.2 hlt)
    · exact hne hadm.unfragmented.2

def plainParams : Params := ⟨false, false, 0, 0, 17⟩

def plain (frag : BitVec 16) : List Word :=
  [0x4500, 22, 0, frag, 0x4011, 0, 0, 0, 0, 0, 0xcafe].map swapLanes

theorem presented_plain (frag : BitVec 16) :
    Presented between ((beats (plain frag) 2).map feed) (plain frag) 2 :=
  presented_feed (List.cons_ne_nil _ _)

theorem passes_plain (hf : (swapLanes frag).extractLsb' 5 3 = fragFlag) :
    PassesChecks plainParams (plain frag) where
  version := by
    change (swapLanes 0x4500).extractLsb' 4 4 = 4
    decide
  flags _ := hf
  protocol _ := by
    change lane1 (swapLanes 0x4011) = 17
    decide
  src h := Bool.noConfusion h
  dst h := Bool.noConfusion h

theorem shown_admissible_plain :
    (∃ u, some u ∈
      answers (machine plainParams) beat port between ((beats (plain 0x4000) 2).map feed)) ∧
      Admissible plainParams (plain 0x4000) := by
  have hp := (presented_plain 0x4000).offered
  have hfound : found (machine plainParams) beat between ((beats (plain 0x4000) 2).map feed) =
      between := found_feed plainParams (List.cons_ne_nil _ _)
  have hN : headWords (plain 0x4000) < (plain 0x4000).length := by decide
  have hpass : PassesChecks plainParams (plain 0x4000) := passes_plain (by decide)
  have hshown := hp.shown_iff plainParams
  have hadm := shown_admissible_iff plainParams hp
  rw [hfound, clear_between.headEnd_eq, clear_between.passes_iff hN] at hshown
  rw [hfound, clear_between.leaks_iff] at hadm
  have hok : ¬ ((ihl (plain 0x4000)).toNat < 5 ∨ fragOffset (plain 0x4000) ≠ 0) := by decide
  exact ⟨hshown.2 ⟨hN, hpass⟩, hadm.2 (fun h => hok h.2.2) (hshown.2 ⟨hN, hpass⟩)⟩

/-- A fragment that starts 8 bytes into its datagram is shown. -/
theorem fragment_shown :
    Offered between ((beats (plain 0x4001) 2).map feed) (plain 0x4001) 2 ∧
      ¬ ((∃ u, some u ∈
        answers (machine plainParams) beat port between ((beats (plain 0x4001) 2).map feed)) →
        Admissible plainParams (plain 0x4001)) := by
  have hp := (presented_plain 0x4001).offered
  have hfound : found (machine plainParams) beat between ((beats (plain 0x4001) 2).map feed) =
      between := found_feed plainParams (List.cons_ne_nil _ _)
  have hN : headWords (plain 0x4001) < (plain 0x4001).length := by decide
  have hshown := hp.shown_iff plainParams
  rw [hfound, clear_between.headEnd_eq, clear_between.passes_iff hN] at hshown
  refine ⟨hp, fun hadm => ?_⟩
  have hoff := (hadm (hshown.2 ⟨hN, passes_plain (by decide)⟩)).unfragmented.2
  exact absurd hoff (by decide)

def srcField (ws : List Word) : BitVec 32 := swapLanes (ws.getD 6 0) ++ swapLanes (ws.getD 7 0)

def dstField (ws : List Word) : BitVec 32 := swapLanes (ws.getD 8 0) ++ swapLanes (ws.getD 9 0)

def AddrsMatch (p : Params) (ws : List Word) : Prop :=
  srcField ws = p.srcAddr ∧ dstField ws = p.dstAddr

/-- A whole header that passes every check but that of the addresses. -/
structure OtherChecks (p : Params) (ws : List Word) : Prop where
  version : (ws.getD 0 0).extractLsb' 4 4 = Ipv4Rx.version
  ihl : 5 ≤ (Ipv4Rx.ihl ws).toNat
  flags : (ws.getD 3 0).extractLsb' 5 3 = fragFlag
  protocol : lane1 (ws.getD 4 0) = p.protocol
  checksum : badChecksum ws = false

/-- The answers to a packet when all bytes of both addresses are checked. -/
structure AddrFilter (p : Params) (ws : List Word) (answers : List (Option UdpRx.Beat)) :
    Prop where
  payload : (∀ k, headWords ws ≤ k → k < packetWords ws → k < ws.length →
    ∃ u, answers[k]? = some (some u)) ↔ AddrsMatch p ws
  mismatch : ¬ AddrsMatch p ws → ∀ a ∈ answers, a = none

/-- What the filter asks of the addresses: the first two bytes of each field have to be those of the
configuration the other way round. -/
def UpperSwapped (p : Params) (ws : List Word) : Prop :=
  ws.getD 6 0 = p.srcAddr.extractLsb' 16 16 ∧ ws.getD 8 0 = p.dstAddr.extractLsb' 16 16

/-- The first two bytes of an address are the same. -/
def Twin (addr : BitVec 32) : Prop := addr.extractLsb' 24 8 = addr.extractLsb' 16 8

theorem swapLanes_eq_self (w : Word) : swapLanes w = w ↔ lane1 w = lane0 w := by
  constructor
  · intro h
    rw [← lane0_swapLanes, h]
  · intro h
    calc
      swapLanes w = lanes (lane1 w) (lane0 w) := rfl
      _ = lanes (lane0 w) (lane1 w) := by rw [h]
      _ = w := lanes_lane w

/-- The upper half of a field that holds `addr`. -/
theorem upper_swapped_iff {addr : BitVec 32} (h : swapLanes w ++ swapLanes v = addr) :
    w = addr.extractLsb' 16 16 ↔ Twin addr := by
  have hup : addr.extractLsb' 16 16 = swapLanes w := by
    rw [← h]
    exact BitVec.extractLsb'_append_eq_left
  have hhi : addr.extractLsb' 24 8 = lane1 (swapLanes w) := by
    rw [← hup]
    exact (extractLsb'_field addr (by decide : 8 + 8 ≤ 16)).symm
  have hlo : addr.extractLsb' 16 8 = lane0 (swapLanes w) := by
    rw [← hup]
    exact (extractLsb'_field addr (by decide : 0 + 8 ≤ 16)).symm
  rw [Twin, hup, hhi, hlo, lane1_swapLanes, lane0_swapLanes, eq_comm, swapLanes_eq_self]
  exact eq_comm

theorem AddrsMatch.upper_iff (h : AddrsMatch p ws) :
    UpperSwapped p ws ↔ Twin p.srcAddr ∧ Twin p.dstAddr :=
  and_congr (upper_swapped_iff h.1) (upper_swapped_iff h.2)

def payloadEnd (ws : List Word) : Nat := min (packetWords ws) ws.length - 1

/-- What is asked of a packet and of the state `s` that it finds: with the configured addresses its
payload has to be shown from its first word to its last, with any others nothing of it. -/
structure Filters (p : Params) (s : State) (ws : List Word) : Prop where
  matching : AddrsMatch p ws →
    headEnd s.cntQ (ihl ws) ≤ headWords ws ∧ Shows p s ws (payloadEnd ws)
  other : ¬ AddrsMatch p ws →
    ¬ (headEnd s.cntQ (ihl ws) < ws.length ∧ Passes p s (headerFrom s ws))

theorem Lasts.mono (h : Lasts s ws k) (hle : j ≤ k) : Lasts s ws j :=
  fun i hi hlt => h i hi (Nat.lt_of_lt_of_le hlt hle)

theorem shows_payload_iff (hN : headWords ws < ws.length) :
    (∀ k, headWords ws ≤ k → k < packetWords ws → k < ws.length → Shows p s ws k) ↔
      headEnd s.cntQ (ihl ws) ≤ headWords ws ∧ Shows p s ws (payloadEnd ws) := by
  have hNM := headWords_lt_packetWords ws
  have hend : payloadEnd ws = min (packetWords ws) ws.length - 1 := rfl
  constructor
  · intro hall
    exact ⟨(hall _ (Nat.le_refl _) hNM hN).past, hall _ (by omega) (by omega) (by omega)⟩
  · rintro ⟨hpast, hlast⟩ k hk hM hlt
    have hle : k ≤ payloadEnd ws := by omega
    refine ⟨Nat.le_trans hpast hk, hlast.passes, hlast.lasts.mono hle, ?_⟩
    rcases hlast.sound with hcor | heq
    · exact .inl hcor
    · exact .inr (Nat.le_antisymm (heq ▸ hle) (Nat.le_trans hpast hk))

/-- When the address filter works, whatever state the packet finds. -/
theorem addrFilter_iff (p : Params) (h : Offered s is ws l) (hN : headWords ws < ws.length) :
    AddrFilter p ws (answers (machine p) beat port s is) ↔
      Filters p (found (machine p) beat s is) ws := by
  have hshows (k : Nat) := h.shows_iff (k := k) p
  have hshown := h.shown_iff p
  have hpay := shows_payload_iff (p := p) (s := found (machine p) beat s is) hN
  have hNM := headWords_lt_packetWords ws
  have hall : (∀ k, headWords ws ≤ k → k < packetWords ws → k < ws.length →
      ∃ u, (answers (machine p) beat port s is)[k]? = some (some u)) ↔
      headEnd (found (machine p) beat s is).cntQ (ihl ws) ≤ headWords ws ∧
        Shows p (found (machine p) beat s is) ws (payloadEnd ws) := by
    rw [← hpay]
    exact ⟨fun ha k hk hM hlt => ((hshows k).1 (ha k hk hM hlt)).2,
      fun ha k hk hM hlt => (hshows k).2 ⟨hlt, ha k hk hM hlt⟩⟩
  have hnone : (∀ a ∈ answers (machine p) beat port s is, a = none) ↔
      ¬ ∃ u, some u ∈ answers (machine p) beat port s is := by
    constructor
    · rintro hn ⟨u, hu⟩
      cases hn _ hu
    · intro hn a ha
      cases a with
      | none => rfl
      | some u => exact absurd ⟨u, ha⟩ hn
  constructor
  · rintro ⟨hpayload, hmiss⟩
    refine ⟨fun hmatch => hall.1 (hpayload.2 hmatch), fun hother => ?_⟩
    rw [← hshown, ← hnone]
    exact hmiss hother
  · rintro ⟨hmatch, hother⟩
    constructor
    · refine ⟨fun ha => ?_, fun hm => hall.2 (hmatch hm)⟩
      by_contra hno
      obtain ⟨u, hu⟩ := ha _ (Nat.le_refl _) hNM hN
      exact hother hno (hshown.1 ⟨u, List.mem_of_getElem? hu⟩)
    · intro hno
      rw [hnone, hshown]
      exact hother hno

theorem OtherChecks.passes_iff (h : OtherChecks p ws)
    (hm : p.matchSrcAddr = true ∧ p.matchDstAddr = true) :
    PassesChecks p ws ↔ UpperSwapped p ws := by
  have h5 := h.ihl
  constructor
  · exact fun hpass => ⟨hpass.src hm.1 (by omega), hpass.dst hm.2 h5⟩
  · exact fun hup => ⟨h.version, fun _ => h.flags, fun _ => h.protocol, fun _ _ => hup.1,
      fun _ _ => hup.2⟩

theorem Clear.filters_iff (h : Clear s) (hm : p.matchSrcAddr = true ∧ p.matchDstAddr = true)
    (hc : OtherChecks p ws) (hN : headWords ws < ws.length) :
    Filters p s ws ↔ (AddrsMatch p ws → Twin p.srcAddr ∧ Twin p.dstAddr) ∧
      (¬ AddrsMatch p ws → ¬ UpperSwapped p ws) := by
  have hNM := headWords_lt_packetWords ws
  have hend : payloadEnd ws = min (packetWords ws) ws.length - 1 := rfl
  have hpass := hc.passes_iff hm
  have hcor : corrupt s.headChecksumQ (header ws) = false :=
    (corrupt_full hc.ihl (Nat.le_of_lt hN)).trans hc.checksum
  have hshows : Shows p s ws (payloadEnd ws) ↔ UpperSwapped p ws := by
    rw [h.shows_iff (by omega) (by omega), filtered_header hN, hpass]
    exact ⟨fun hs => hs.2.1, fun hu => ⟨by omega, hu, .inl hcor⟩⟩
  constructor
  · rintro ⟨hmatch, hother⟩
    rw [h.headEnd_eq, h.passes_iff hN, hpass] at hother
    exact ⟨fun ha => ha.upper_iff.1 (hshows.1 (hmatch ha).2), fun ha hup => hother ha ⟨hN, hup⟩⟩
  · rintro ⟨hmatch, hother⟩
    constructor
    · exact fun ha => ⟨Nat.le_of_eq (h.headEnd_eq ws), hshows.2 (ha.upper_iff.2 (hmatch ha))⟩
    · intro ha
      rw [h.headEnd_eq, h.passes_iff hN, hpass]
      exact fun hup => hother ha hup.2

def addrParams (src dst : BitVec 32) : Params := ⟨true, true, src, dst, 17⟩

def addressed (checksum : BitVec 16) (src dst : BitVec 32) : List Word :=
  [0x4500, 22, 0, 0x4000, 0x4011, checksum, src.extractLsb' 16 16, src.extractLsb' 0 16,
    dst.extractLsb' 16 16, dst.extractLsb' 0 16, 0xcafe].map swapLanes

theorem presented_addressed : Presented between ((beats (addressed c src dst) 2).map feed)
    (addressed c src dst) 2 :=
  presented_feed (List.cons_ne_nil _ _)

theorem found_addressed (p : Params) :
    found (machine p) beat between ((beats (addressed c src dst) 2).map feed) = between :=
  found_feed p (List.cons_ne_nil _ _)

/-- From 10.10.0.1 to 10.10.0.2, as configured. -/
theorem addrFilter_twin : AddrFilter (addrParams 0x0a0a0001 0x0a0a0002)
    (addressed 0x26c1 0x0a0a0001 0x0a0a0002)
    (answers (machine (addrParams 0x0a0a0001 0x0a0a0002)) beat port between
      ((beats (addressed 0x26c1 0x0a0a0001 0x0a0a0002) 2).map feed)) := by
  have hc : OtherChecks (addrParams 0x0a0a0001 0x0a0a0002)
      (addressed 0x26c1 0x0a0a0001 0x0a0a0002) :=
    ⟨by decide, by decide, by decide, by decide, by decide⟩
  apply (addrFilter_iff _ presented_addressed.offered (by decide)).2
  rw [found_addressed, clear_between.filters_iff ⟨rfl, rfl⟩ hc (by decide)]
  exact ⟨fun _ => ⟨rfl, rfl⟩, fun hmiss => absurd ⟨by decide, by decide⟩ hmiss⟩

/-- From 192.168.0.1 to 192.168.0.2, as configured, and yet filtered. -/
theorem addrFilter_not_twin : OtherChecks (addrParams 0xc0a80001 0xc0a80002)
      (addressed 0xb983 0xc0a80001 0xc0a80002) ∧
    AddrsMatch (addrParams 0xc0a80001 0xc0a80002) (addressed 0xb983 0xc0a80001 0xc0a80002) ∧
    ¬ AddrFilter (addrParams 0xc0a80001 0xc0a80002) (addressed 0xb983 0xc0a80001 0xc0a80002)
      (answers (machine (addrParams 0xc0a80001 0xc0a80002)) beat port between
        ((beats (addressed 0xb983 0xc0a80001 0xc0a80002) 2).map feed)) := by
  have hc : OtherChecks (addrParams 0xc0a80001 0xc0a80002)
      (addressed 0xb983 0xc0a80001 0xc0a80002) :=
    ⟨by decide, by decide, by decide, by decide, by decide⟩
  have hmatch : AddrsMatch (addrParams 0xc0a80001 0xc0a80002)
      (addressed 0xb983 0xc0a80001 0xc0a80002) :=
    ⟨by decide, by decide⟩
  refine ⟨hc, hmatch, fun hfil => ?_⟩
  obtain ⟨u, hu⟩ := hfil.payload.2 hmatch 10 (by decide) (by decide) (by decide)
  obtain ⟨_, hshows⟩ := (presented_addressed.offered.shows_iff _).1 ⟨u, hu⟩
  have hpass := hshows.passes
  rw [found_addressed, clear_between.passes_iff (by decide)] at hpass
  exact absurd (hpass.src rfl (by decide)) (by decide)

end LowLatencyEthernet.Ipv4Rx
