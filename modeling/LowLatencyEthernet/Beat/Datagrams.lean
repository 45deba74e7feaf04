import LowLatencyEthernet.Beat.UdpRx

namespace LowLatencyEthernet.UdpRx
set_option autoImplicit true

open Sync

def shown (first : Bool) (us : List Beat) : List AppBeat :=
  us.mapIdx fun j u => ⟨first && decide (j = 0), u.term, u.termLen, u.data⟩

theorem run_data (hne : us ≠ [])
    (hterm : ∀ k u, us[k]? = some u → (u.term = true ↔ k + 1 = us.length)) :
    (transducer p).run (.data drop first) us = .idle ∧
      (transducer p).emit (.data drop first) us = if drop then [] else shown first us := by
  induction us generalizing first with
  | nil => exact absurd rfl hne
  | cons u us ih =>
    have hu := hterm 0 u rfl
    cases us with
    | nil =>
      have ht : u.term = true := hu.2 rfl
      cases drop <;>
        simp [transducer, Transducer.emit, Phase.next, Phase.out, shown, ht]
    | cons u' us =>
      have ht : u.term = false := by
        rw [Bool.eq_false_iff]
        intro h
        have hl := hu.1 h
        simp at hl
      have hrest : ∀ k v, (u' :: us)[k]? = some v →
          (v.term = true ↔ k + 1 = (u' :: us).length) := by
        intro k v hv
        have h := hterm (k + 1) v hv
        simpa using h
      obtain ⟨hrun, hemit⟩ : (transducer p).run (.data drop false) (u' :: us) = .idle ∧ _ :=
        ih (List.cons_ne_nil _ _) hrest
      have hn : (transducer p).next (.data drop first) u = .data drop false := by
        simp [transducer, Phase.next, ht]
      refine ⟨by rw [Mealy.run_cons, hn, hrun], ?_⟩
      rw [Transducer.emit_cons, hn, hemit]
      cases drop with
      | true => rfl
      | false => simp [transducer, Phase.out, shown, ht]

/-- The beats of one datagram with at least one beat of payload. -/
structure IsDatagram (us : List Beat) : Prop where
  start : ∀ u ∈ us.head?, u.start = true
  csErr : ∀ u ∈ us.head?, u.csErr = false
  term : ∀ k u, us[k]? = some u → (u.term = true ↔ k + 1 = us.length)
  payload : 5 ≤ us.length

/-- The ports a datagram is filtered by. Only the source port counts: the filter register holds
still outside of idle. -/
def wrongPort (p : Params) (us : List Beat) : Bool :=
  us.head?.any fun u => swapLanes u.data != p.srcPort

/-- The receiver is still inside a datagram it filters. -/
def Jammed : Phase → Prop
  | .head k drop => 1 ≤ k ∧ k ≤ 3 ∧ drop = true
  | .data drop _ => drop = true
  | .idle => False

theorem IsDatagram.split (h : IsDatagram us) :
    ∃ u₀ u₁ u₂ u₃ rest, us = [u₀, u₁, u₂, u₃] ++ rest ∧ rest ≠ [] ∧
      (∀ u ∈ [u₀, u₁, u₂, u₃], u.term = false) ∧
      ∀ k u, rest[k]? = some u → (u.term = true ↔ k + 1 = rest.length) := by
  obtain _ | ⟨u₀, _ | ⟨u₁, _ | ⟨u₂, _ | ⟨u₃, rest⟩⟩⟩⟩ := us
  · exact absurd h.payload (by decide)
  · exact absurd h.payload (by simp)
  · exact absurd h.payload (by simp)
  · exact absurd h.payload (by simp)
  have hlen := h.payload
  have hterm := h.term
  simp only [List.length_cons] at hlen hterm
  refine ⟨u₀, u₁, u₂, u₃, rest, rfl, ?_, ?_, ?_⟩
  · rintro rfl
    simp at hlen
  · intro u hu
    rw [Bool.eq_false_iff]
    intro ht
    obtain ⟨k, hk⟩ := List.mem_iff_getElem?.1 hu
    have hk4 : k < 4 := by
      have := (List.getElem?_eq_some_iff.1 hk).1
      simpa using this
    have hk' : ([u₀, u₁, u₂, u₃] ++ rest)[k]? = some u := by
      rw [List.getElem?_append_left (by simpa using hk4), hk]
    have hlast := (hterm k u hk').1 ht
    omega
  · intro k u hu
    rw [hterm (k + 4) u hu]
    omega

theorem IsDatagram.run_idle (h : IsDatagram us) :
    (transducer p).run .idle us = .idle ∧
      (transducer p).emit .idle us = if wrongPort p us then [] else shown true (us.drop 4) := by
  obtain ⟨u₀, u₁, u₂, u₃, rest, rfl, hne, _, hterm⟩ := h.split
  have hs : u₀.start = true := h.start u₀ rfl
  have he : u₀.csErr = false := h.csErr u₀ rfl
  have hport : wrongPort p ([u₀, u₁, u₂, u₃] ++ rest) = (swapLanes u₀.data != p.srcPort) := rfl
  have hhead : (transducer p).run .idle [u₀, u₁, u₂, u₃] =
      .data (swapLanes u₀.data != p.srcPort) true := by
    simp [transducer, Phase.next, hs, he]
  have hsilent : (transducer p).emit .idle [u₀, u₁, u₂, u₃] = [] := by
    simp [transducer, Transducer.emit, Phase.next, Phase.out, hs, he]
  rw [hport, Mealy.run_append, Transducer.emit_append, hhead, hsilent, List.nil_append]
  exact run_data hne hterm

theorem IsDatagram.run_jammed (h : IsDatagram us) (hj : Jammed ph) :
    (transducer p).run ph us = .idle ∧ (transducer p).emit ph us = [] := by
  obtain ⟨u₀, u₁, u₂, u₃, rest, rfl, hne, hopen, hterm⟩ := h.split
  have h₀ : u₀.term = false := hopen u₀ (by simp)
  have h₁ : u₁.term = false := hopen u₁ (by simp)
  have h₂ : u₂.term = false := hopen u₂ (by simp)
  have h₃ : u₃.term = false := hopen u₃ (by simp)
  have hhead : ∃ first, (transducer p).run ph [u₀, u₁, u₂, u₃] = .data true first ∧
      (transducer p).emit ph [u₀, u₁, u₂, u₃] = [] := by
    cases ph with
    | idle => exact hj.elim
    | data drop first =>
      obtain rfl : drop = true := hj
      simp [transducer, Transducer.emit, Phase.next, Phase.out, h₀, h₁, h₂, h₃]
    | head k drop =>
      obtain ⟨h1, h3, rfl⟩ := hj
      have hk : k = 1 ∨ k = 2 ∨ k = 3 := by omega
      rcases hk with rfl | rfl | rfl <;>
        simp [transducer, Transducer.emit, Phase.next, Phase.out, h₁, h₂, h₃]
  obtain ⟨first, hrun, hemit⟩ := hhead
  rw [Mealy.run_append, Transducer.emit_append, hrun, hemit, List.nil_append]
  exact run_data hne hterm

theorem run_corrupt (hs : u.start = true) (he : u.csErr = true) (ht : u.term = false)
    (hph : ph = .idle ∨ Jammed ph) :
    Jammed ((transducer p).run ph [u]) ∧ (transducer p).emit ph [u] = [] := by
  rcases hph with rfl | hj
  · simp [transducer, Transducer.emit, Phase.next, Phase.out, Jammed, hs, he]
  cases ph with
  | idle => exact hj.elim
  | head k drop =>
    obtain ⟨h1, h3, rfl⟩ := hj
    refine ⟨?_, rfl⟩
    by_cases hk : k = 3
    · simp [transducer, Phase.next, Jammed, hk]
    · simp [transducer, Phase.next, Jammed, hk]
      omega
  | data drop first =>
    obtain rfl : drop = true := hj
    simp [transducer, Transducer.emit, Phase.next, Phase.out, Jammed, ht]

theorem emit_head {us : List Beat} (h : k + us.length ≤ 4) :
    (transducer p).emit (.head k drop) us = [] := by
  induction us generalizing k with
  | nil => rfl
  | cons u us ih =>
    rw [List.length_cons] at h
    rw [Transducer.emit_cons]
    by_cases h3 : k = 3
    · have hnil : us = [] := List.eq_nil_of_length_eq_zero (by omega)
      rw [hnil]
      rfl
    · have hnext : (transducer p).next (.head k drop) u = .head (k + 1) drop := if_neg h3
      rw [hnext, ih (by omega)]
      rfl

theorem emit_short {us : List Beat} (h : us.length ≤ 4) : (transducer p).emit .idle us = [] := by
  induction us with
  | nil => rfl
  | cons u us ih =>
    rw [List.length_cons] at h
    rw [Transducer.emit_cons]
    cases hs : u.start with
    | true =>
      have hnext : (transducer p).next .idle u =
          .head 1 (swapLanes u.data != p.srcPort || u.csErr) := if_pos hs
      rw [hnext, emit_head (by omega)]
      rfl
    | false =>
      have hnext : (transducer p).next .idle u = .idle := by simp [transducer, Phase.next, hs]
      rw [hnext, ih (by omega)]
      rfl

theorem term_emit {us : List Beat} (h : a ∈ (transducer p).emit ph us) (ht : a.term = true) :
    ∃ u ∈ us, u.term = true := by
  induction us generalizing ph with
  | nil => exact absurd h (List.not_mem_nil)
  | cons u us ih =>
    rw [Transducer.emit_cons, List.mem_append] at h
    rcases h with h | h
    · refine ⟨u, List.mem_cons_self, ?_⟩
      cases ph with
      | data drop first =>
        cases drop with
        | true => exact absurd h (List.not_mem_nil)
        | false =>
          obtain rfl : a = ⟨first, u.term, u.termLen, u.data⟩ := List.mem_singleton.1 h
          exact ht
      | _ => exact absurd h (List.not_mem_nil)
    · obtain ⟨v, hv, hvt⟩ := ih h
      exact ⟨v, List.mem_cons_of_mem _ hv, hvt⟩

end LowLatencyEthernet.UdpRx
