import LowLatencyEthernet.Beat.MacRx32
import LowLatencyEthernet.Beat.MacRx64
import LowLatencyEthernet.Rtl.WideCheck

namespace LowLatencyEthernet
set_option autoImplicit true

open Sync Lfsr
open CrcWide (Width)
open Crc (poly crc32)

namespace WideCheck

section

variable {w : Width} {m : Mac w σ ι ο}

theorem run_mac (s : State σ) (is : List (In ι)) :
    ((machine m).run s is).mac = m.machine.run s.mac (is.map In.port) := by
  induction is generalizing s with
  | nil => rfl
  | cons i is ih => exact ih _

def taken (m : Mac w σ ι ο) (is : List (In ι)) : List (BitVec w.dataW) :=
  is.filterMap fun i => if m.validI i.port then some (m.dataI i.port) else none

theorem taken_append (is js : List (In ι)) : taken m (is ++ js) = taken m is ++ taken m js :=
  List.filterMap_append

theorem taken_beat {i : In ι} (hv : m.validI i.port = true) : taken m [i] = [m.dataI i.port] :=
  List.filterMap_cons_some (if_pos hv)

theorem taken_stall {i : In ι} (hv : m.validI i.port = false) : taken m [i] = [] :=
  List.filterMap_cons_none (if_neg (Bool.not_eq_true _ ▸ hv))

theorem length_taken {beat : ι → Option β} (hb : ∀ i, (beat i).isSome = m.validI i)
    (is : List (In ι)) : (taken m is).length = ((is.map In.port).filterMap beat).length := by
  rw [taken, List.filterMap_map, List.length_filterMap_eq_countP, List.length_filterMap_eq_countP]
  apply List.countP_congr
  intro i _
  rw [Function.comp_apply, hb]
  cases m.validI i.port <;> simp

def registerFrom (n : Nat) (r : BitVec 32) (ds : List (BitVec w.dataW)) : BitVec 32 :=
  if n < ds.length then crc32 ((ds.drop n).flatMap seenBytes)
  else (ds.flatMap seenBytes).foldl (absorb poly) r

theorem registerFrom_concat (n : Nat) (r : BitVec 32) (ds : List (BitVec w.dataW))
    (d : BitVec w.dataW) : registerFrom n r (ds ++ [d]) =
      absorbSeen (if ds.length = n then BitVec.allOnes 32 else registerFrom n r ds) d := by
  have hone : [d].flatMap seenBytes = seenBytes d := List.flatMap_singleton _ _
  rw [registerFrom, registerFrom, List.length_append, List.length_singleton, absorbSeen]
  rcases Nat.lt_trichotomy n ds.length with h | rfl | h
  · rw [if_pos (Nat.lt_succ_of_lt h), if_neg (Nat.ne_of_gt h), if_pos h,
      List.drop_append_of_le_length (Nat.le_of_lt h), List.flatMap_append, hone, crc32,
      List.foldl_append]
    rfl
  · rw [if_pos (Nat.lt_succ_self _), if_pos rfl, List.drop_left, hone]
    rfl
  · rw [if_neg (by omega), if_neg (Nat.ne_of_lt h), if_neg (by omega), List.flatMap_append, hone,
      List.foldl_append]

/-- The beats are full, and the register starts over with beat `n`. -/
structure Starts (m : Mac w σ ι ο) (n : Nat) (s : σ) (is : List (In ι)) : Prop where
  full : ∀ i ∈ is, m.validI i.port = true → (m.lenI i.port).toNat = w.keepW
  start : ∀ pre i post, is = pre ++ i :: post → m.validI i.port = true →
    (m.crcStartV (m.machine.run s (pre.map In.port)) = true ↔ (taken m pre).length = n)

theorem Starts.left {s : σ} (h : Starts m n s (is ++ js)) : Starts m n s is where
  full i hi := h.full i (List.mem_append_left js hi)
  start := by
    rintro pre i post rfl
    apply h.start pre i (post ++ js)
    rw [List.append_assoc, List.cons_append]

theorem Starts.run {s : State σ} {is : List (In ι)} (h : Starts m n s.mac is) :
    ((machine m).run s is).crc.lfsrQ = registerFrom n s.crc.lfsrQ (taken m is) := by
  induction is using List.reverseRecOn with
  | nil =>
    have hnil : taken m ([] : List (In ι)) = [] := rfl
    rw [hnil, registerFrom, List.length_nil, if_neg (Nat.not_lt_zero n)]
    rfl
  | append_singleton is i ih =>
    have hrun := ih h.left
    rw [Mealy.run_append, Mealy.run_cons, Mealy.run_nil, taken_append]
    cases hv : m.validI i.port with
    | false => rw [lfsrQ_stall hv, hrun, taken_stall hv, List.append_nil]
    | true =>
      have hi : i ∈ is ++ [i] := List.mem_append_right is List.mem_cons_self
      have hstart := h.start is i [] rfl hv
      rw [← run_mac] at hstart
      rw [lfsrQ_full hv (h.full i hi hv), hrun, taken_beat hv, registerFrom_concat]
      simp only [hstart]

theorem crcErrO_iff {s : State σ} {i : In ι} (hv : m.validI i.port = true)
    (ht : m.termI i.port = true) : ((machine m).out s i).crcErrO = true ↔ s.crc.lfsrQ ≠ 0 := by
  change (!(s.crc.lfsrQ == 0) && m.termI i.port && m.validI i.port) = true ↔ _
  rw [hv, ht]
  simp

end

end WideCheck

open WideCheck (seenBytes taken taken_append taken_beat taken_stall registerFrom Starts)

namespace MacRx32

theorem Sim.crcStartV_iff (h : Sim s ph) : mac.crcStartV s = true ↔ ph = .head 2 := by
  cases ph with
  | head k =>
    obtain ⟨_, hh, _, h1, hk, hc, _⟩ := h
    have hcases : k = 1 ∨ k = 2 ∨ k = 3 ∨ k = 4 ∨ k = 5 := by omega
    rcases hcases with rfl | rfl | rfl | rfl | rfl <;> simp [mac, hh, hc]
  | invalid => simp [mac, h.2.1]
  | type => simp [mac, h.2.2.2.1]
  | data bypass => simp [mac, h.2.1]

/-- The header is not left before the sixth beat and not entered again after it. -/
def Later (ph : Phase) (k : Nat) : Prop :=
  if k = 0 then ph = .invalid else if k ≤ 5 then ph = .head k else ∀ j, ph ≠ .head j

theorem Later.next (h : Later ph k) (hs : b.start = true ↔ k = 0) (hc : b.cancel = false) :
    Later (ph.next b) (k + 1) := by
  unfold Later at h ⊢
  rw [if_neg (Nat.succ_ne_zero k)]
  by_cases h0 : k = 0
  · rw [if_pos h0] at h
    have hst := hs.2 h0
    subst h0 h
    simp [Phase.next, hst, hc]
  rw [if_neg h0] at h
  have hns : b.start = false := Bool.eq_false_iff.2 fun hst => h0 (hs.1 hst)
  by_cases h5 : k ≤ 5
  · rw [if_pos h5] at h
    subst h
    by_cases he : k = 5
    · subst he
      rw [if_neg (by decide)]
      intro j
      cases htag : b.word == MacRx.tpic <;> simp [Phase.next, hc, htag]
    · rw [if_pos (by omega)]
      simp [Phase.next, hc, he]
  · rw [if_neg h5] at h
    rw [if_neg (by omega)]
    intro j
    cases ph with
    | head k => exact absurd rfl (h k)
    | invalid => simp [Phase.next, hns]
    | type => simp [Phase.next, hc]
    | data bypass => cases ht : b.term <;> simp [Phase.next, hc, ht]

theorem Carries.later (h : Carries f bs) (hk : k ≤ f.length) :
    Later (transducer.run .invalid (f.take k)) k := by
  induction k with
  | zero => exact rfl
  | succ k ih =>
    have hb : f[k]? = some f[k] := List.getElem?_eq_getElem hk
    rw [Mealy.run_take_succ _ hb]
    exact (ih (Nat.le_of_succ_le hk)).next (h.start k _ hb)
      (h.uncancelled _ (List.mem_of_getElem? hb))

theorem Later.head_two_iff (h : Later ph k) : ph = .head 2 ↔ k = 2 := by
  unfold Later at h
  split at h
  · subst h
    simp_all
  · split at h
    · subst h
      simp
    · exact iff_of_false (h 2) (by omega)

def beats (is : List (WideCheck.In In)) : List Beat := (is.map WideCheck.In.port).filterMap beat

theorem beats_append (is js : List (WideCheck.In In)) :
    beats (is ++ js) = beats is ++ beats js := by
  rw [beats, List.map_append, List.filterMap_append]
  rfl

theorem isSome_beat (i : In) : (beat i).isSome = mac.validI i := by
  cases hv : i.validI <;> simp [beat, mac, hv]

theorem length_taken (is : List (WideCheck.In In)) : (taken mac is).length = (beats is).length :=
  WideCheck.length_taken isSome_beat is

/-- The cycles of a frame, stalls among them, and the last one. The beats before it are full. -/
structure Arrival where
  frame : EthernetFrame
  cycles : List (WideCheck.In In)
  last : WideCheck.In In
  carries : Carries (beats (cycles ++ [last])) frame.bytes
  full : ∀ i ∈ cycles, i.port.validI = true → i.port.lenI = 4
  valid : last.port.validI = true

namespace Arrival

variable (a : Arrival)

theorem beats_last : beats [a.last] = [⟨a.last.port.cancelI, a.last.port.startI,
    a.last.port.dataI, a.last.port.termI, a.last.port.lenI⟩] :=
  List.filterMap_cons_some (if_pos a.valid)

theorem term : a.last.port.termI = true := by
  have hcarries := a.carries
  rw [beats_append, a.beats_last] at hcarries
  apply (hcarries.term (beats a.cycles).length _ List.getElem?_concat_length).2
  rw [List.length_append, List.length_singleton]

theorem long : 2 < (taken mac a.cycles).length := by
  have hle := a.carries.length_le
  have hlen := a.frame.length_bytes
  rw [beats_append, a.beats_last, List.length_append, List.length_singleton] at hle
  rw [length_taken]
  unfold EthernetFrame.typeOffset at hlen
  omega

theorem starts (hs : Sim s .invalid) : Starts mac 2 s a.cycles where
  full i hi hv := congrArg BitVec.toNat (a.full i hi hv)
  start := by
    intro pre i post hsplit _
    have hbeats : beats (a.cycles ++ [a.last]) = beats pre ++ beats (i :: post ++ [a.last]) := by
      rw [hsplit, List.append_assoc, beats_append]
    have hcarries := a.carries
    rw [hbeats] at hcarries
    have hsim := follows.run hs ((Mealy.along_append _ _ _ _ _).1 hcarries.along).1
    have hlater := hcarries.later (k := (beats pre).length)
      (by rw [List.length_append]; exact Nat.le_add_right _ _)
    rw [List.take_left] at hlater
    rw [length_taken, ← hlater.head_two_iff]
    exact hsim.crcStartV_iff

end Arrival

/-- On the last beat of a frame `crc_err_o` tests a register that has taken, of each beat from the
third up to the one before, two zeros and the first two bytes. -/
theorem crc_err_half_iff (a : Arrival) {s : WideCheck.State State} (hs : Sim s.mac .invalid) :
    ((WideCheck.machine mac).out ((WideCheck.machine mac).run s a.cycles) a.last).crcErrO = true ↔
      crc32 (((taken mac a.cycles).drop 2).flatMap seenBytes) ≠ 0 := by
  rw [WideCheck.crcErrO_iff a.valid a.term, (a.starts hs).run, registerFrom, if_pos a.long]

def sampleArrival : Arrival where
  frame := sampleFrame
  cycles := (sampleWide.take 6).map fun i => ⟨i, 0⟩
  last := ⟨⟨false, true, 0x05040302, false, true, 4, 0⟩, 0⟩
  carries := carries_sampleWide
  full := by decide
  valid := rfl

theorem crc_err_half_iff_sample : ((WideCheck.machine mac).out ((WideCheck.machine mac).run
    ⟨reset default default, default⟩ sampleArrival.cycles) sampleArrival.last).crcErrO = true :=
  (crc_err_half_iff sampleArrival (sim_reset default default)).2 (by decide +kernel)

end MacRx32

namespace MacRx64

theorem InHead.crcStartV_iff (h : InHead second s k) (hk : 1 ≤ k) (hle : k ≤ idBeat second) :
    mac.crcStartV s = true ↔ second = false ∧ k = 1 := by
  cases second with
  | false =>
    have hid : idBeat false = 2 := rfl
    have hcases : k = 1 ∨ k = 2 := by omega
    rcases hcases with rfl | rfl <;> simp [mac, h.head, h.cnt, leadLen]
  | true =>
    have hid : idBeat true = 3 := rfl
    have hcases : k = 1 ∨ k = 2 ∨ k = 3 := by omega
    rcases hcases with rfl | rfl | rfl <;> simp [mac, h.head, h.cnt, leadLen]

theorem Reaches.crcStartV_iff {is : List In} (hr : Reaches is pre i k)
    (h : Carries second (is.filterMap beat) fr.bytes) (hs : Between s) (hseen : Seen fr second is) :
    mac.crcStartV (machine.run s pre) = true ↔ second = false ∧ k = 1 := by
  rcases Nat.lt_or_ge (idBeat second) k with hk | hk
  · have hdata := hseen.inData h hs hr hk
    have hpos := idBeat_pos second
    refine iff_of_false ?_ (by omega)
    simp [mac, hdata.head]
  · have hat := hr.at h hs hk
    by_cases h0 : k = 0
    · subst h0
      have hb : Between (machine.run s pre) := hat
      simp [mac, hb.head]
    · exact (hat.inHead h0).crcStartV_iff (Nat.pos_of_ne_zero h0) hk

theorem isSome_beat (i : In) : (beat i).isSome = mac.validI i := by
  cases hv : i.validI <;> simp [beat, mac, hv]

/-- The cycles of a frame of one of the layouts that are seen, and the last one. -/
structure Arrival (second : Bool) where
  frame : EthernetFrame
  cycles : List (WideCheck.In In)
  last : WideCheck.In In
  carries : Carries second (((cycles ++ [last]).map WideCheck.In.port).filterMap beat) frame.bytes
  seen : Seen frame second ((cycles ++ [last]).map WideCheck.In.port)
  full : ∀ i ∈ cycles, i.port.validI = true → i.port.lenI = 8
  valid : last.port.validI = true

namespace Arrival

variable {second : Bool} (a : Arrival second)

theorem beats_last : ((a.cycles ++ [a.last]).map WideCheck.In.port).filterMap beat =
    (a.cycles.map WideCheck.In.port).filterMap beat ++ [a.last.port] := by
  have hb : beat a.last.port = some a.last.port := if_pos a.valid
  rw [List.map_append, List.filterMap_append, List.map_singleton, List.filterMap_cons_some hb,
    List.filterMap_nil]

theorem term : a.last.port.termI = true := by
  have hcarries := a.carries
  rw [a.beats_last] at hcarries
  apply (hcarries.term _ _ List.getElem?_concat_length).2
  rw [List.length_append, List.length_singleton]

theorem long : 1 < (taken mac a.cycles).length := by
  have hlen := a.frame.length_bytes
  have hlt := a.carries.lt_length (k := 2) (by unfold EthernetFrame.typeOffset at hlen; omega)
  rw [a.beats_last, List.length_append, List.length_singleton] at hlt
  rw [WideCheck.length_taken isSome_beat]
  omega

theorem starts (hs : Between s) :
    Starts mac (if second then (taken mac a.cycles).length else 1) s a.cycles where
  full i hi hv := congrArg BitVec.toNat (a.full i hi hv)
  start := by
    intro pre i post hsplit hv
    have hr : Reaches ((a.cycles ++ [a.last]).map WideCheck.In.port) (pre.map WideCheck.In.port)
        i.port (taken mac pre).length := by
      refine ⟨⟨(post ++ [a.last]).map WideCheck.In.port, ?_⟩, hv,
        (WideCheck.length_taken isSome_beat pre).symm⟩
      rw [hsplit, List.append_assoc, List.cons_append, List.map_append, List.map_cons]
    have hlt : (taken mac pre).length < (taken mac a.cycles).length := by
      have hbeats : taken mac (i :: post) = taken mac [i] ++ taken mac post := taken_append [i] post
      rw [hsplit, taken_append, hbeats, taken_beat hv, List.length_append, List.length_append,
        List.length_singleton]
      omega
    refine (hr.crcStartV_iff a.carries hs a.seen).trans ?_
    cases second with
    | false => simp
    | true => simp [Nat.ne_of_lt hlt]

end Arrival

def sampleArrival : Arrival true where
  frame := sampleFrame
  cycles := (sampleSecond.take 3).map fun i => ⟨i, 0⟩
  last := ⟨⟨false, true, 0x0201000800000081, 0, true, 8⟩, 0⟩
  carries := carries_sampleSecond
  seen := .inl rfl
  full := by decide
  valid := rfl

end MacRx64

end LowLatencyEthernet
