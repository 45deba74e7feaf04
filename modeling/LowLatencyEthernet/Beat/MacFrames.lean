import LowLatencyEthernet.Sync.Reception
import LowLatencyEthernet.Beat.MacRx

namespace LowLatencyEthernet.MacRx
set_option autoImplicit true

open Sync

/-- A tag follows the addresses: the bytes at offsets 20 and 21 are `81 00`. -/
def tagged (p : Params) (f : List Beat) : Bool :=
  p.vlanTag && decide (f[10]?.map Beat.data = some tpic)

def headLen (p : Params) (f : List Beat) : Nat := if tagged p f then 13 else 11

/-- The type field is `08 00`. -/
def isIpv4 (p : Params) (f : List Beat) : Bool :=
  decide (f[headLen p f - 1]?.map Beat.data = some ipv4)

/-- A start on the first beat only, a term or a cancel on the last only. -/
structure Delimited (f : List Beat) : Prop where
  start : ∀ k b, f[k]? = some b → (b.start = true ↔ k = 0)
  stop : ∀ k b, f[k]? = some b → ((b.cancel = true ∨ b.term = true) ↔ k + 1 = f.length)
  nonempty : f ≠ []

/-- The valid beats of one frame, with at least one beat after the type unless it is cancelled. -/
structure IsFrame (p : Params) (f : List Beat) : Prop extends Delimited f where
  payload : (∀ b ∈ f, b.cancel = false) → headLen p f < f.length

def expected (p : Params) (f : List Beat) : List (Option Ipv4Rx.Beat) :=
  f.mapIdx fun k b =>
    if headLen p f ≤ k ∧ isIpv4 p f = true then
      some ⟨decide (k = headLen p f), b.data, if b.term then b.len else 2⟩
    else none

/-- The phase in which beat `k` of a frame arrives. -/
def phaseAt (p : Params) (f : List Beat) (k : Nat) : Phase :=
  if k = 0 then .invalid
  else if k ≤ 10 then .head k
  else if headLen p f ≤ k then .data (decide (k = headLen p f)) (!isIpv4 p f)
  else if k = 11 then .tci
  else .type

theorem headLen_cases (p : Params) (f : List Beat) : headLen p f = 11 ∨ headLen p f = 13 := by
  unfold headLen
  split
  · exact .inr rfl
  · exact .inl rfl

theorem headLen_tagged (h : tagged p f = true) : headLen p f = 13 := by simp [headLen, h]

theorem headLen_untagged (h : tagged p f = false) : headLen p f = 11 := by simp [headLen, h]

theorem next_phaseAt (hb : f[k]? = some b) (hs : b.start = true ↔ k = 0)
    (hc : b.cancel = false) (ht : b.term = false) :
    (phaseAt p f k).next p b = phaseAt p f (k + 1) := by
  by_cases h0 : k = 0
  · subst h0
    simp [phaseAt, Phase.next, hs.2 rfl, hc]
  by_cases h10 : k < 10
  · have h1 : k ≤ 10 := by omega
    have h2 : k + 1 ≤ 10 := by omega
    have h3 : k ≠ 10 := by omega
    simp [phaseAt, Phase.next, h0, h1, h2, h3, hc]
  by_cases he : k = 10
  · subst he
    cases hg : tagged p f with
    | true =>
      have hv : (p.vlanTag && b.data == tpic) = true := by
        simpa [tagged, hb] using hg
      simp [phaseAt, Phase.next, hc, hv, headLen_tagged hg]
    | false =>
      have hv : (p.vlanTag && b.data == tpic) = false := by
        cases hp : p.vlanTag <;> simp_all [tagged]
      have hd : (b.data != ipv4) = !isIpv4 p f := by
        simp [isIpv4, headLen_untagged hg, hb]
        rfl
      simp [phaseAt, Phase.next, hc, hv, hd, headLen_untagged hg]
  by_cases hl : headLen p f ≤ k
  · have h1 : ¬ k ≤ 10 := by omega
    have h2 : ¬ k + 1 ≤ 10 := by omega
    have h3 : headLen p f ≤ k + 1 := by omega
    have h4 : ¬ k + 1 = headLen p f := by omega
    simp [phaseAt, Phase.next, h0, h1, h2, h3, h4, hl, hc, ht]
  · -- only a tag leaves a gap between beat 10 and the type
    have hg : tagged p f = true := by
      cases hg : tagged p f with
      | true => rfl
      | false => rw [headLen_untagged hg] at hl; omega
    rw [headLen_tagged hg] at hl
    have hk : k = 11 ∨ k = 12 := by omega
    rcases hk with rfl | rfl
    · simp [phaseAt, Phase.next, hc, headLen_tagged hg]
    · have hd : (b.data != ipv4) = !isIpv4 p f := by
        simp [isIpv4, headLen_tagged hg, hb]
        rfl
      simp [phaseAt, Phase.next, hc, hd, headLen_tagged hg]

theorem out_phaseAt (p : Params) (f : List Beat) (k : Nat) (b : Beat) :
    (phaseAt p f k).out b =
      if headLen p f ≤ k ∧ isIpv4 p f = true then
        some ⟨decide (k = headLen p f), b.data, if b.term then b.len else 2⟩
      else none := by
  by_cases hl : headLen p f ≤ k
  · have h0 : k ≠ 0 := by rcases headLen_cases p f with h | h <;> omega
    have h1 : ¬ k ≤ 10 := by rcases headLen_cases p f with h | h <;> omega
    cases hi : isIpv4 p f <;> simp [phaseAt, Phase.out, h0, h1, hl, hi]
  · simp only [phaseAt, hl, if_false, false_and]
    split
    · rfl
    split
    · rfl
    split <;> rfl

theorem next_cancel (ph : Phase) (hc : b.cancel = true) : ph.next p b = .invalid := by
  cases ph <;> simp [Phase.next, hc]

theorem Delimited.goes_on (hf : Delimited f) (hb : f[k]? = some b) (hk : k + 1 ≠ f.length) :
    b.cancel = false ∧ b.term = false := by
  have hopen : ¬ (b.cancel = true ∨ b.term = true) := fun h => hk ((hf.stop k b hb).1 h)
  constructor
  · exact Bool.eq_false_iff.2 fun h => hopen (.inl h)
  · exact Bool.eq_false_iff.2 fun h => hopen (.inr h)

theorem Delimited.next_phaseAt (hf : Delimited f) (hb : f[k]? = some b) (hk : k + 1 ≠ f.length) :
    (phaseAt p f k).next p b = phaseAt p f (k + 1) := by
  obtain ⟨hc, ht⟩ := hf.goes_on hb hk
  exact MacRx.next_phaseAt hb (hf.start k b hb) hc ht

theorem IsFrame.next_last (hf : IsFrame p f) (hb : f[k]? = some b) (hk : k + 1 = f.length) :
    (phaseAt p f k).next p b = .invalid := by
  cases hc : b.cancel with
  | true => exact next_cancel _ hc
  | false =>
    have ht : b.term = true := by
      rcases (hf.stop k b hb).2 hk with h | h
      · rw [hc] at h; cases h
      · exact h
    have hnc : ∀ c ∈ f, c.cancel = false := by
      intro c hcm
      obtain ⟨j, hj⟩ := List.mem_iff_getElem?.1 hcm
      by_cases hjk : j + 1 = f.length
      · have he : j = k := by omega
        subst he
        rw [hb] at hj
        cases hj
        exact hc
      · exact (hf.goes_on hj hjk).1
    have hl := hf.payload hnc
    have h0 : k ≠ 0 := by rcases headLen_cases p f with h | h <;> omega
    have h1 : ¬ k ≤ 10 := by rcases headLen_cases p f with h | h <;> omega
    have h2 : headLen p f ≤ k := by omega
    simp [phaseAt, Phase.next, h0, h1, h2, ht]

/-- Where the receiver is after `k` beats of a frame: between frames again after the last one. -/
def phaseAfter (p : Params) (f : List Beat) (k : Nat) : Phase :=
  if k = f.length then .invalid else phaseAt p f k

theorem IsFrame.phaseAfter_zero (hf : IsFrame p f) : phaseAfter p f 0 = .invalid := by
  have hpos := List.length_pos_of_ne_nil hf.nonempty
  exact if_neg (Nat.ne_of_lt hpos)

theorem phaseAfter_lt (hb : f[k]? = some b) : phaseAfter p f k = phaseAt p f k :=
  if_neg (Nat.ne_of_lt (List.getElem?_eq_some_iff.1 hb).1)

theorem IsFrame.next_phaseAfter (hf : IsFrame p f) (k : Nat) (b : Beat) (hb : f[k]? = some b) :
    (transducer p).next (phaseAfter p f k) b = phaseAfter p f (k + 1) := by
  rw [phaseAfter_lt hb, phaseAfter]
  by_cases hlast : k + 1 = f.length
  · rw [if_pos hlast]
    exact hf.next_last hb hlast
  · rw [if_neg hlast]
    exact hf.toDelimited.next_phaseAt hb hlast

theorem IsFrame.run_eq (hf : IsFrame p f) : (transducer p).run .invalid f = .invalid := by
  have hrun := Mealy.run_schedule (phaseAfter p f) hf.next_phaseAfter
  rw [hf.phaseAfter_zero] at hrun
  rw [hrun]
  exact if_pos rfl

theorem IsFrame.along (hf : IsFrame p f) : (transducer p).Along StartOk .invalid f := by
  rw [← hf.phaseAfter_zero]
  apply Mealy.along_schedule (phaseAfter p f) hf.next_phaseAfter
  intro k b hb hs
  rw [(hf.start k b hb).1 hs]
  exact hf.phaseAfter_zero

theorem IsFrame.trace_eq (hf : IsFrame p f) :
    (transducer p).trace .invalid f = expected p f := by
  have htrace := Mealy.trace_schedule (phaseAfter p f) hf.next_phaseAfter
  rw [hf.phaseAfter_zero] at htrace
  rw [htrace, expected, List.mapIdx_eq_mapIdx_iff]
  intro k hk
  rw [phaseAfter_lt (List.getElem?_eq_getElem hk)]
  exact out_phaseAt p f k _

theorem Delimited.run_take (hf : Delimited f) (hk : k < f.length) :
    (transducer p).run .invalid (f.take k) = phaseAt p f k := by
  induction k with
  | zero => rfl
  | succ k ih =>
    have hk' : k < f.length := Nat.lt_of_succ_lt hk
    have hb : f[k]? = some f[k] := List.getElem?_eq_getElem hk'
    rw [List.take_succ_eq_append_getElem hk', Mealy.run_append, ih hk']
    exact hf.next_phaseAt hb (Nat.ne_of_lt hk)

/-- The beats of a frame of the words `ws`, the last one `len` bytes long. -/
def framed (ws : List Word) (len : BitVec 2) : List Beat :=
  ws.mapIdx fun k w =>
    ⟨false, decide (k = 0), w, decide (k + 1 = ws.length), if k + 1 = ws.length then len else 2⟩

@[simp] theorem length_framed (ws : List Word) (len : BitVec 2) :
    (framed ws len).length = ws.length := List.length_mapIdx

theorem map_data_framed (ws : List Word) (len : BitVec 2) : (framed ws len).map Beat.data = ws := by
  apply List.ext_getElem
  · simp
  · intro k _ _
    simp [framed]

theorem headLen_framed (ws : List Word) (len : BitVec 2) :
    headLen p (framed ws len) = if p.vlanTag && decide (ws[10]? = some tpic) then 13 else 11 := by
  rw [headLen, tagged, ← List.getElem?_map, map_data_framed]

theorem isIpv4_framed (ws : List Word) (len : BitVec 2) : isIpv4 p (framed ws len) =
    decide (ws[headLen p (framed ws len) - 1]? = some ipv4) := by
  rw [isIpv4, ← List.getElem?_map, map_data_framed]

theorem getElem?_framed {b : Beat} (h : (framed ws len)[k]? = some b) :
    ∃ w, b = ⟨false, decide (k = 0), w, decide (k + 1 = ws.length),
      if k + 1 = ws.length then len else 2⟩ := by
  rw [framed, List.getElem?_mapIdx, Option.map_eq_some_iff] at h
  obtain ⟨w, _, rfl⟩ := h
  exact ⟨w, rfl⟩

theorem start_framed {b : Beat} (h : (framed ws len)[k]? = some b) : b.start = true ↔ k = 0 := by
  obtain ⟨w, rfl⟩ := getElem?_framed h
  exact decide_eq_true_iff

theorem term_framed {b : Beat} (h : (framed ws len)[k]? = some b) :
    b.term = true ↔ k + 1 = (framed ws len).length := by
  obtain ⟨w, rfl⟩ := getElem?_framed h
  rw [length_framed]
  exact decide_eq_true_iff

theorem cancel_framed {b : Beat} (h : b ∈ framed ws len) : b.cancel = false := by
  obtain ⟨k, hk⟩ := List.mem_iff_getElem?.1 h
  obtain ⟨w, rfl⟩ := getElem?_framed hk
  rfl

theorem len_framed {b : Beat} (h : b ∈ framed ws len) (ht : b.term = true) : b.len = len := by
  obtain ⟨k, hk⟩ := List.mem_iff_getElem?.1 h
  obtain ⟨w, rfl⟩ := getElem?_framed hk
  exact if_pos (of_decide_eq_true ht)

theorem framed_delimited (ws : List Word) (len : BitVec 2) (hne : ws ≠ []) :
    Delimited (framed ws len) where
  start _ _ := start_framed
  stop k b hb := by
    rw [cancel_framed (List.mem_of_getElem? hb), ← term_framed hb]
    simp
  nonempty := by
    apply List.ne_nil_of_length_pos
    rw [length_framed]
    exact List.length_pos_of_ne_nil hne

def Idle (b : Beat) : Prop := b.start = false

abbrev Reception (p : Params) := Sync.Reception beat Idle (IsFrame p)

theorem rests (p : Params) : Rests (transducer p) StartOk Idle (IsFrame p) (· = .invalid) where
  idle := by
    rintro _ b rfl hb
    refine ⟨fun _ => rfl, ?_, rfl⟩
    simp only [Idle] at hb
    simp [transducer, Phase.next, hb]
  frame := by
    rintro _ f rfl hf
    exact ⟨hf.along, hf.run_eq⟩

/-- From reset and after any frames, the receiver answers the beats of a frame as `expected` says
and nothing else, and is exactly in `invalid` when the frame is over. -/
theorem parses_frames (p : Params) (s₀ : State) (i₀ : In) (past : List (Reception p))
    (r : Reception p) :
    let s := (machine p).run (reset p s₀ i₀) (Reception.allCycles past)
    let s' := (machine p).run s r.cycles
    answers (machine p) beat port s r.cycles =
        r.gap.map (fun _ => none) ++ expected p r.frame ∧
      delivered (machine p) port s r.cycles = (expected p r.frame).filterMap id ∧
      s'.fsmInvalidQ = true ∧ s'.fsmHeadQ = false ∧ s'.fsmDataQ = false := by
  intro s s'
  obtain ⟨hs, hrest⟩ := (follows p).after (rests p) (sim_reset p s₀ i₀) rfl past
  rw [hrest] at hs
  obtain ⟨hs', hans, hdel⟩ := (follows p).reception (rests p) hs rfl r
  have htr := r.whole.trace_eq
  rw [r.whole.run_eq] at hs'
  rw [htr] at hans
  rw [Transducer.emit, htr] at hdel
  exact ⟨hans, hdel, hs'⟩

end LowLatencyEthernet.MacRx
