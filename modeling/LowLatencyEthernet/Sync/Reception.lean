import LowLatencyEthernet.Sync.Follows

namespace Sync
set_option autoImplicit true

/-- The cycles of one frame and of the idle items before it, with stalls anywhere. -/
structure Reception (beat : ι → Option β) (Idle : β → Prop) (Frame : List β → Prop) where
  cycles : List ι
  gap : List β
  frame : List β
  idle : ∀ b ∈ gap, Idle b
  whole : Frame frame
  carries : cycles.filterMap beat = gap ++ frame

/-- The cycles of idle items and of a frame up to its item `pos`, with stalls anywhere. -/
structure Cut (beat : ι → Option β) (Idle : β → Prop) (Frame : List β → Prop) where
  cycles : List ι
  gap : List β
  frame : List β
  pos : Nat
  idle : ∀ b ∈ gap, Idle b
  whole : Frame frame
  carries : cycles.filterMap beat = gap ++ frame.take pos

def Cut.weaken {Frame Frame' : List β → Prop} (h : ∀ f, Frame f → Frame' f)
    (c : Cut beat Idle Frame) : Cut beat Idle Frame' :=
  { c with whole := h _ c.whole }

namespace Reception

variable {beat : ι → Option β} {Idle : β → Prop} {Frame : List β → Prop}

def allCycles (rs : List (Reception beat Idle Frame)) : List ι := rs.flatMap cycles

def weaken {Frame' : List β → Prop} (h : ∀ f, Frame f → Frame' f)
    (r : Reception beat Idle Frame) : Reception beat Idle Frame' :=
  { r with whole := h _ r.whole }

/-- A frame without stalls or idle items, `feed` being the cycle that carries an item. -/
def ofFrame (feed : β → ι) (hfeed : ∀ b, beat (feed b) = some b) (f : List β) (hf : Frame f) :
    Reception beat Idle Frame where
  cycles := f.map feed
  gap := []
  frame := f
  idle := nofun
  whole := hf
  carries := by
    rw [List.filterMap_map, List.nil_append]
    exact (List.filterMap_congr fun b _ => hfeed b).trans List.filterMap_some

@[simp] theorem allCycles_nil : allCycles ([] : List (Reception beat Idle Frame)) = [] := rfl

@[simp] theorem allCycles_cons (r : Reception beat Idle Frame) (rs) :
    allCycles (r :: rs) = r.cycles ++ allCycles rs := rfl

theorem allCycles_weaken {Frame' : List β → Prop} (h : ∀ f, Frame f → Frame' f)
    (rs : List (Reception beat Idle Frame)) :
    allCycles (rs.map (weaken h)) = allCycles rs := by
  rw [allCycles, List.flatMap_map]
  rfl

end Reception

/-- A transducer that rests between frames: idle items leave it where it is, without an answer, and
a frame brings it back to rest. -/
structure Rests (a : Transducer α β γ) (Ok : α → β → Prop) (Idle : β → Prop)
    (Frame : List β → Prop) (Rest : α → Prop) : Prop where
  idle : ∀ {x b}, Rest x → Idle b → Ok x b ∧ a.next x b = x ∧ a.out x b = none
  frame : ∀ {x f}, Rest x → Frame f → a.Along Ok x f ∧ Rest (a.run x f)

namespace Rests

variable {a : Transducer α β γ} {Ok : α → β → Prop} {Idle : β → Prop} {Frame : List β → Prop}
  {Rest : α → Prop}

theorem gap (h : Rests a Ok Idle Frame Rest) (hx : Rest x) (hg : ∀ b ∈ g, Idle b) :
    a.Along Ok x g ∧ a.run x g = x ∧ a.trace x g = g.map fun _ => none := by
  induction g with
  | nil => exact ⟨True.intro, rfl, rfl⟩
  | cons b g ih =>
    obtain ⟨hok, hn, ho⟩ := h.idle hx (hg b List.mem_cons_self)
    obtain ⟨hal, hr, ht⟩ := ih fun c hc => hg c (List.mem_cons_of_mem _ hc)
    refine ⟨⟨hok, by rwa [hn]⟩, by rwa [Mealy.run_cons, hn], ?_⟩
    rw [Mealy.trace_cons, ho, hn, ht]
    rfl

theorem gap_emit (h : Rests a Ok Idle Frame Rest) (hx : Rest x) (hg : ∀ b ∈ g, Idle b) :
    Transducer.emit a x g = [] := by
  rw [Transducer.emit, (h.gap hx hg).2.2, List.filterMap_eq_nil_iff]
  intro o ho
  obtain ⟨_, _, rfl⟩ := List.mem_map.1 ho
  rfl

theorem receptions (h : Rests a Ok Idle Frame Rest) (hx : Rest x)
    (rs : List (Reception beat Idle Frame)) :
    a.Along Ok x ((Reception.allCycles rs).filterMap beat) ∧
      a.run x ((Reception.allCycles rs).filterMap beat) =
        a.run x (rs.flatMap Reception.frame) ∧
      Rest (a.run x (rs.flatMap Reception.frame)) := by
  induction rs generalizing x with
  | nil => exact ⟨True.intro, rfl, hx⟩
  | cons r rs ih =>
    obtain ⟨hga, hgr, _⟩ := h.gap hx r.idle
    obtain ⟨hfa, hfr⟩ := h.frame hx r.whole
    obtain ⟨hal, hr, hrest⟩ := ih hfr
    rw [Reception.allCycles_cons, List.filterMap_append, r.carries, List.flatMap_cons]
    refine ⟨?_, ?_, ?_⟩
    · rw [Mealy.along_append, Mealy.along_append, Mealy.run_append, hgr]
      exact ⟨⟨hga, hfa⟩, hal⟩
    · rw [Mealy.run_append, Mealy.run_append, hgr, hr, Mealy.run_append]
    · rwa [Mealy.run_append]

end Rests

namespace Follows

variable {m : Mealy σ ι ο} {a : Transducer α β γ} {beat : ι → Option β} {port : ο → Option γ}
  {Ok : α → β → Prop} {Rel : σ → α → Prop} {Idle : β → Prop} {Frame : List β → Prop}
  {Rest : α → Prop}

theorem after (h : Follows m a beat port Ok Rel) (hr : Rests a Ok Idle Frame Rest)
    (hs : Rel s x) (hx : Rest x) (past : List (Reception beat Idle Frame)) :
    Rel (m.run s (Reception.allCycles past)) (a.run x (past.flatMap Reception.frame)) ∧
      Rest (a.run x (past.flatMap Reception.frame)) := by
  obtain ⟨hal, hrun, hrest⟩ := hr.receptions hx past
  refine ⟨?_, hrest⟩
  rw [← hrun]
  exact h.run hs hal

theorem reception (h : Follows m a beat port Ok Rel) (hr : Rests a Ok Idle Frame Rest)
    (hs : Rel s x) (hx : Rest x) (r : Reception beat Idle Frame) :
    Rel (m.run s r.cycles) (a.run x r.frame) ∧
      answers m beat port s r.cycles = r.gap.map (fun _ => none) ++ a.trace x r.frame ∧
      delivered m port s r.cycles = Transducer.emit a x r.frame := by
  obtain ⟨hga, hgr, hgt⟩ := hr.gap hx r.idle
  have hal : a.Along Ok x (r.cycles.filterMap beat) := by
    rw [r.carries, Mealy.along_append, hgr]
    exact ⟨hga, (hr.frame hx r.whole).1⟩
  refine ⟨?_, ?_, ?_⟩
  · have hrel := h.run hs hal
    rwa [r.carries, Mealy.run_append, hgr] at hrel
  · rw [h.answers_eq hs hal, r.carries, Mealy.trace_append, hgt, hgr]
  · rw [h.delivered_eq hs hal, r.carries, Transducer.emit_append, hr.gap_emit hx r.idle, hgr]
    rfl

theorem cut (h : Follows m a beat port Ok Rel) (hr : Rests a Ok Idle Frame Rest)
    (hs : Rel s x) (hx : Rest x) (c : Cut beat Idle Frame) :
    Rel (m.run s c.cycles) (a.run x (c.frame.take c.pos)) := by
  obtain ⟨hga, hgr, _⟩ := hr.gap hx c.idle
  have hfa := (hr.frame hx c.whole).1
  rw [← List.take_append_drop c.pos c.frame, Mealy.along_append] at hfa
  have hal : a.Along Ok x (c.cycles.filterMap beat) := by
    rw [c.carries, Mealy.along_append, hgr]
    exact ⟨hga, hfa.1⟩
  have hrel := h.run hs hal
  rwa [c.carries, Mealy.run_append, hgr] at hrel

end Follows

end Sync
