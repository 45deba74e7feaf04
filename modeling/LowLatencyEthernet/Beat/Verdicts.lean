import LowLatencyEthernet.Beat.EthFrames
import LowLatencyEthernet.Beat.Packets
import LowLatencyEthernet.Beat.Datagrams

namespace LowLatencyEthernet
set_option autoImplicit true

open Sync

namespace MacRx

def Beat.size (b : Beat) : Nat := if b.term then b.len.toNat else 2

def size (bs : List Beat) : Nat := (bs.map Beat.size).sum

def payload (p : Params) (f : List Beat) : List Beat := f.drop (headLen p f)

def lastLen (bs : List Beat) : BitVec 2 := (bs.getLast?.map Beat.len).getD 2

theorem packet_eq (hterm : ∀ j b, bs[j]? = some b → (b.term = true ↔ j + 1 = bs.length)) :
    packet bs = Ipv4Rx.beats (bs.map Beat.data) (lastLen bs) := by
  apply List.ext_getElem
  · simp [packet, Ipv4Rx.beats]
  intro j hj _
  have hj' : j < bs.length := by simpa [packet] using hj
  have ht := hterm j bs[j] (List.getElem?_eq_getElem hj')
  by_cases hl : j + 1 = bs.length
  · have hlast : bs.getLast? = some bs[j] := by
      rw [List.getLast?_eq_getElem?, ← hl, Nat.add_sub_cancel, List.getElem?_eq_getElem hj']
    simp [packet, Ipv4Rx.beats, ht.2 hl, hl, lastLen, hlast]
  · have ht' : bs[j].term = false := Bool.eq_false_iff.2 (mt ht.1 hl)
    simp [packet, Ipv4Rx.beats, ht', hl]

theorem size_le (hl : ∀ b ∈ bs, b.term = true → b.len = 1 ∨ b.len = 2) :
    size bs ≤ 2 * bs.length := by
  induction bs with
  | nil => exact Nat.le_refl 0
  | cons b bs ih =>
    have hrest := ih fun c hc => hl c (List.mem_cons_of_mem _ hc)
    have hb : b.size ≤ 2 := by
      rw [Beat.size]
      split
      · rcases hl b List.mem_cons_self ‹_› with h | h <;> rw [h] <;> decide
      · exact Nat.le_refl 2
    simp only [size, List.map_cons, List.sum_cons, List.length_cons] at hrest ⊢
    omega

theorem size_full (h : ∀ b ∈ bs, b.size = 2) : size bs = 2 * bs.length := by
  induction bs with
  | nil => rfl
  | cons b bs ih =>
    have hb := h b List.mem_cons_self
    have hrest := ih fun c hc => h c (List.mem_cons_of_mem _ hc)
    simp only [size, List.map_cons, List.sum_cons, List.length_cons] at hrest ⊢
    omega

theorem size_payload_framed (ws : List Word) :
    size (payload p (framed ws 2)) = 2 * (ws.length - headLen p (framed ws 2)) := by
  rw [size_full, payload, List.length_drop, length_framed]
  intro b hb
  obtain ⟨k, hk⟩ := List.mem_iff_getElem?.1 (List.mem_of_mem_drop hb)
  rw [framed, List.getElem?_mapIdx, Option.map_eq_some_iff] at hk
  obtain ⟨w, _, rfl⟩ := hk
  simp [Beat.size]

theorem WellFormed.payload_term (hf : WellFormed p f) :
    ∀ j b, (payload p f)[j]? = some b → (b.term = true ↔ j + 1 = (payload p f).length) := by
  intro j b hb
  rw [payload, List.getElem?_drop] at hb
  have hstop := hf.frame.stop _ b hb
  have hlen := hf.frame.payload hf.uncancelled
  have hc := hf.uncancelled b (List.mem_of_getElem? hb)
  rw [hc] at hstop
  rw [payload, List.length_drop]
  simp only [Bool.false_eq_true, false_or] at hstop
  rw [hstop]
  omega

end MacRx

namespace Ipv4Rx

/-- The lengths in a header agree with the `n` bytes the frame carries, and leave a byte for the
payload of a datagram. -/
structure Consistent (ws : List Word) (n : Nat) : Prop where
  ihl : 5 ≤ (ihl ws).toNat
  head : 4 * (Ipv4Rx.ihl ws).toNat + 9 ≤ (totLen ws).toNat
  fits : (totLen ws).toNat ≤ n

theorem Consistent.headWords_eq (h : Consistent ws n) :
    headWords ws = 2 * (Ipv4Rx.ihl ws).toNat := by
  have := h.ihl
  rw [headWords]
  omega

theorem Consistent.packetWords_eq (h : Consistent ws n) :
    packetWords ws = ((totLen ws).toNat + 1) / 2 := by
  have h1 := h.head
  have h2 := h.headWords_eq
  rw [packetWords]
  omega

theorem Consistent.fits_words (h : Consistent ws n) (hn : n ≤ 2 * ws.length) :
    packetWords ws ≤ ws.length := by
  have h1 := h.fits
  have h2 := h.packetWords_eq
  omega

def checksum (ws : List Word) : BitVec 16 := swapLanes (ws.getD 5 0)

/-- The header words but the checksum, as the numbers they hold. -/
def summands (ws : List Word) : List (BitVec 16) := ((header ws).eraseIdx 5).map swapLanes

/-- The checksum field is not the complement of the end-around sum of the other words. -/
def badChecksum (ws : List Word) : Bool := ~~~(OnesComplement.sum (summands ws)) != checksum ws

theorem corrupt_full (h5 : 5 ≤ (ihl ws).toNat) (hn : headWords ws ≤ ws.length) :
    corrupt hc (header ws) = badChecksum ws := by
  have hN : headWords ws = max 2 (2 * (ihl ws).toNat) := rfl
  have hlen : (header ws).length = headWords ws := List.length_take_of_le hn
  have hcs : headCsAfter hc (header ws) = checksum ws := by
    rw [headCsAfter, if_pos (by omega), checksum, header, List.getD_eq_getElem?_getD,
      List.getD_eq_getElem?_getD, List.getElem?_take_of_lt (by omega)]
  have hsum : (csAcc (header ws)).total = OnesComplement.sum (summands ws) :=
    OnesComplement.Acc.total_foldl _
  rw [corrupt, badChecksum, hcs, hsum]

theorem corrupt_eq (h : Consistent ws n) (hn : headWords ws ≤ ws.length) :
    corrupt hc (header ws) = badChecksum ws :=
  corrupt_full h.ihl hn

end Ipv4Rx

inductive Verdict where
  | filtered
  | corrupt
  | accepted (bs : List AppBeat)
deriving DecidableEq, Repr

/-- Between frames the receive path is free or jammed. -/
inductive Gate where
  | free
  | jammed
deriving DecidableEq, Repr

namespace Gate

def next : Gate → Verdict → Gate
  | g, .filtered => g
  | _, .corrupt => .jammed
  | _, .accepted _ => .free

def out : Gate → Verdict → List AppBeat
  | .free, .accepted bs => bs
  | _, _ => []

end Gate

/-- The receive path as it takes whole frames. -/
def gate : Mealy Gate Verdict (List AppBeat) := ⟨Gate.next, Gate.out⟩

namespace EthRx

def words (p : Params) (f : List MacRx.Beat) : List Word :=
  (MacRx.payload (macParams p) f).map MacRx.Beat.data

/-- A well-formed frame with consistent lengths, if it is an IPv4 frame at all. -/
structure Consistent (p : Params) (f : List MacRx.Beat) : Prop where
  wellFormed : MacRx.WellFormed (macParams p) f
  lengths : MacRx.isIpv4 (macParams p) f = true →
    Ipv4Rx.Consistent (words p f) (MacRx.size (MacRx.payload (macParams p) f))

theorem words_framed (ws : List Word) (len : BitVec 2) :
    words p (MacRx.framed ws len) =
      ws.drop (MacRx.headLen (macParams p) (MacRx.framed ws len)) := by
  rw [words, MacRx.payload, List.map_drop, MacRx.map_data_framed]

/-- The frame passes the type filter and the filters of the IPv4 layer. -/
def reachesUdp (p : Params) (f : List MacRx.Beat) : Bool :=
  MacRx.isIpv4 (macParams p) f &&
    !Ipv4Rx.filtered (ipParams p) (Ipv4Rx.header (words p f))

def wrongPort (p : Params) (ws : List Word) : Bool :=
  (Ipv4Rx.payloadWords ws).head?.any fun w => swapLanes w != p.srcPort

def delivery (ws : List Word) : List AppBeat :=
  ((Ipv4Rx.payloadWords ws).drop 4).mapIdx fun j w =>
    ⟨decide (j = 0), decide (Ipv4Rx.headWords ws + 4 + j + 1 = Ipv4Rx.packetWords ws),
      Ipv4Rx.termLen ws, w⟩

/-- The verdict of a frame, `corrupt` telling whether its header checksum is wrong. -/
def verdictOf (p : Params) (corrupt : Bool) (f : List MacRx.Beat) : Verdict :=
  if reachesUdp p f then
    if corrupt then .corrupt
    else .accepted (if wrongPort p (words p f) then [] else delivery (words p f))
  else .filtered

def verdict (p : Params) (f : List MacRx.Beat) : Verdict :=
  verdictOf p (Ipv4Rx.badChecksum (words p f)) f

/-- The layers between frames, as the gate tells them apart. -/
def GateRel (g : Gate) (y : Ipv4Rx.Reader × UdpRx.Phase) : Prop :=
  y.1.phase = .idle ∧
    match g with
    | .free => y.2 = .idle
    | .jammed => UdpRx.Jammed y.2

theorem handed_words (hf : MacRx.WellFormed (macParams p) f)
    (h : MacRx.isIpv4 (macParams p) f = true) :
    MacRx.handed (macParams p) f =
      Ipv4Rx.beats (words p f) (MacRx.lastLen (MacRx.payload (macParams p) f)) := by
  rw [MacRx.handed_ipv4 h]
  exact MacRx.packet_eq hf.payload_term

theorem fits_words (hf : Consistent p f) (h : MacRx.isIpv4 (macParams p) f = true) :
    Ipv4Rx.packetWords (words p f) ≤ (words p f).length := by
  apply (hf.lengths h).fits_words
  rw [words, List.length_map]
  apply MacRx.size_le
  intro b hb
  exact hf.wellFormed.len b (List.mem_of_mem_drop hb)

theorem totLen_ge (hc : Ipv4Rx.Consistent ws n) : 2 ≤ (Ipv4Rx.totLen ws).toNat := by
  have := hc.head
  omega

theorem packetWords_ge (hc : Ipv4Rx.Consistent ws n) :
    Ipv4Rx.headWords ws + 5 ≤ Ipv4Rx.packetWords ws := by
  have h1 := hc.headWords_eq
  have h2 := hc.packetWords_eq
  have h3 := hc.head
  omega

theorem passed_filtered (h : Ipv4Rx.filtered p (Ipv4Rx.header ws) = true) :
    Ipv4Rx.passed p hc ws = [] := by
  rw [Ipv4Rx.passed, if_pos h]

theorem passed_corrupt (h5 : Ipv4Rx.headWords ws + 5 ≤ Ipv4Rx.packetWords ws)
    (hfit : Ipv4Rx.packetWords ws ≤ ws.length)
    (hf : Ipv4Rx.filtered p (Ipv4Rx.header ws) = false)
    (hc : Ipv4Rx.corrupt cs (Ipv4Rx.header ws) = true) :
    ∃ u, Ipv4Rx.passed p cs ws = [u] ∧ u.start = true ∧ u.csErr = true ∧ u.term = false := by
  have hlen := Ipv4Rx.length_payloadWords ws
  have hM : Ipv4Rx.headWords ws + 1 ≠ Ipv4Rx.packetWords ws := by omega
  cases hp : Ipv4Rx.payloadWords ws with
  | nil =>
    rw [hp, List.length_nil] at hlen
    omega
  | cons w pw =>
    refine ⟨⟨true, false, Ipv4Rx.termLen ws, w, true⟩, ?_, rfl, rfl, rfl⟩
    rw [Ipv4Rx.passed, hf, hc, hp]
    simp [hM]

/-- What UDP gets of a packet that fails no check. -/
def datagramBeats (ws : List Word) : List UdpRx.Beat :=
  (Ipv4Rx.payloadWords ws).mapIdx fun j w =>
    ⟨decide (j = 0), decide (Ipv4Rx.headWords ws + j + 1 = Ipv4Rx.packetWords ws),
      Ipv4Rx.termLen ws, w, false⟩

theorem length_datagramBeats (ws : List Word) :
    (datagramBeats ws).length = min (Ipv4Rx.packetWords ws) ws.length - Ipv4Rx.headWords ws := by
  rw [datagramBeats, List.length_mapIdx, Ipv4Rx.length_payloadWords]

theorem passed_clear (hf : Ipv4Rx.filtered p (Ipv4Rx.header ws) = false)
    (hc : Ipv4Rx.corrupt cs (Ipv4Rx.header ws) = false) :
    Ipv4Rx.passed p cs ws = datagramBeats ws := by
  rw [Ipv4Rx.passed, hf, hc]
  rfl

theorem datagramBeats_isDatagram (h5 : Ipv4Rx.headWords ws + 5 ≤ Ipv4Rx.packetWords ws)
    (hfit : Ipv4Rx.packetWords ws ≤ ws.length) : UdpRx.IsDatagram (datagramBeats ws) := by
  have hlen := length_datagramBeats ws
  have hhead (u : UdpRx.Beat) (hu : u ∈ (datagramBeats ws).head?) :
      u.start = true ∧ u.csErr = false := by
    rw [datagramBeats] at hu
    cases hp : Ipv4Rx.payloadWords ws with
    | nil => simp [hp] at hu
    | cons w pw =>
      rw [hp] at hu
      obtain rfl := by simpa using hu
      exact ⟨rfl, rfl⟩
  refine ⟨fun u hu => (hhead u hu).1, fun u hu => (hhead u hu).2, ?_, ?_⟩
  · intro k u hu
    have hk := (List.getElem?_eq_some_iff.1 hu).1
    rw [datagramBeats, List.getElem?_mapIdx, Option.map_eq_some_iff] at hu
    obtain ⟨w, _, rfl⟩ := hu
    rw [decide_eq_true_iff]
    omega
  · omega

theorem shown_datagramBeats (ws : List Word) :
    UdpRx.shown true ((datagramBeats ws).drop 4) = delivery ws := by
  apply List.ext_getElem?
  intro k
  have hidx : Ipv4Rx.headWords ws + (4 + k) + 1 = Ipv4Rx.headWords ws + 4 + k + 1 := by omega
  simp [UdpRx.shown, datagramBeats, delivery, hidx, Function.comp_def]

theorem wrongPort_datagramBeats (ws : List Word) :
    UdpRx.wrongPort (udpParams p) (datagramBeats ws) = wrongPort p ws := by
  cases hp : Ipv4Rx.payloadWords ws <;>
    simp [UdpRx.wrongPort, datagramBeats, wrongPort, hp, udpParams]

theorem datagramBeats_run (h5 : Ipv4Rx.headWords ws + 5 ≤ Ipv4Rx.packetWords ws)
    (hfit : Ipv4Rx.packetWords ws ≤ ws.length) :
    (UdpRx.transducer (udpParams p)).run .idle (datagramBeats ws) = .idle ∧
      (UdpRx.transducer (udpParams p)).emit .idle (datagramBeats ws) =
        if wrongPort p ws then [] else delivery ws := by
  obtain ⟨hrun, hemit⟩ := (datagramBeats_isDatagram h5 hfit).run_idle (p := udpParams p)
  rw [wrongPort_datagramBeats, shown_datagramBeats] at hemit
  exact ⟨hrun, hemit⟩

theorem verdictOf_filtered (h : reachesUdp p f = false) : verdictOf p e f = .filtered := by
  rw [verdictOf, h]
  rfl

theorem verdictOf_passed (hi : MacRx.isIpv4 (macParams p) f = true)
    (hfil : Ipv4Rx.filtered (ipParams p) (Ipv4Rx.header (words p f)) = false) (e : Bool) :
    verdictOf p e f = if e then .corrupt
      else .accepted (if wrongPort p (words p f) then [] else delivery (words p f)) := by
  have hreach : reachesUdp p f = true := by
    rw [reachesUdp, hi, hfil]
    rfl
  rw [verdictOf, if_pos hreach]

theorem gate_step_ipv4 (hf : MacRx.WellFormed (macParams p) f)
    (hi : MacRx.isIpv4 (macParams p) f = true) (hT : 2 ≤ (Ipv4Rx.totLen (words p f)).toNat)
    (hfit : Ipv4Rx.packetWords (words p f) ≤ (words p f).length)
    (h5 : Ipv4Rx.headWords (words p f) + 5 ≤ Ipv4Rx.packetWords (words p f))
    (hy : GateRel g y) :
    let v := verdictOf p (Ipv4Rx.corrupt y.1.headCs (Ipv4Rx.header (words p f))) f
    GateRel (gate.next g v) ((stack p).run y (MacRx.handed (macParams p) f)) ∧
      (stack p).emit y (MacRx.handed (macParams p) f) = gate.out g v := by
  obtain ⟨⟨rph, tl, hc⟩, ph⟩ := y
  obtain ⟨hidle, hg⟩ := hy
  obtain rfl : rph = .idle := hidle
  intro v
  rw [handed_words hf hi, stack, Transducer.cascade_run, Transducer.cascade_emit,
    Ipv4Rx.run_beats hT hfit, Ipv4Rx.emit_beats fun _ => hT]
  cases hfil : Ipv4Rx.filtered (ipParams p) (Ipv4Rx.header (words p f)) with
  | true =>
    have hv : v = .filtered := verdictOf_filtered (by rw [reachesUdp, hi, hfil]; rfl)
    rw [hv, passed_filtered hfil]
    exact ⟨⟨rfl, hg⟩, by cases g <;> rfl⟩
  | false =>
    have hv : v = _ := verdictOf_passed hi hfil _
    cases hbad : Ipv4Rx.corrupt hc (Ipv4Rx.header (words p f)) with
    | true =>
      obtain ⟨u, hu, hs, he, ht⟩ := passed_corrupt h5 hfit hfil hbad
      have hph : ph = .idle ∨ UdpRx.Jammed ph := by
        cases g with
        | free => exact .inl hg
        | jammed => exact .inr hg
      obtain ⟨hj, hemit⟩ := UdpRx.run_corrupt (p := udpParams p) hs he ht hph
      rw [hv, hbad, hu, hemit]
      refine ⟨⟨rfl, ?_⟩, by cases g <;> rfl⟩
      cases g <;> exact hj
    | false =>
      rw [hv, hbad, passed_clear hfil hbad]
      cases g with
      | free =>
        obtain rfl : ph = .idle := hg
        obtain ⟨hrun, hemit⟩ := datagramBeats_run (p := p) h5 hfit
        rw [hrun, hemit]
        exact ⟨⟨rfl, rfl⟩, rfl⟩
      | jammed =>
        have hdg := datagramBeats_isDatagram h5 hfit
        obtain ⟨hrun, hemit⟩ := hdg.run_jammed (p := udpParams p) hg
        rw [hrun, hemit]
        exact ⟨⟨rfl, rfl⟩, rfl⟩

theorem gate_step (hf : Consistent p f) (hy : GateRel g y) :
    GateRel (gate.next g (verdict p f)) ((stack p).run y (MacRx.handed (macParams p) f)) ∧
      (stack p).emit y (MacRx.handed (macParams p) f) = gate.out g (verdict p f) := by
  cases hi : MacRx.isIpv4 (macParams p) f with
  | false =>
    have hv : verdict p f = .filtered := verdictOf_filtered (by rw [reachesUdp, hi]; rfl)
    rw [hv, MacRx.handed_other hi]
    exact ⟨hy, by cases g <;> rfl⟩
  | true =>
    have hcons := hf.lengths hi
    have hfit := fits_words hf hi
    have hcor : Ipv4Rx.corrupt y.1.headCs (Ipv4Rx.header (words p f)) =
        Ipv4Rx.badChecksum (words p f) :=
      Ipv4Rx.corrupt_eq hcons
        (Nat.le_trans (Nat.le_of_lt (Ipv4Rx.headWords_lt_packetWords _)) hfit)
    rw [verdict, ← hcor]
    exact gate_step_ipv4 hf.wellFormed hi (totLen_ge hcons) hfit (packetWords_ge hcons) hy

end EthRx

end LowLatencyEthernet
