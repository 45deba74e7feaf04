import LowLatencyEthernet.Beat.Verdicts

namespace LowLatencyEthernet
set_option autoImplicit true

/-- The beats of a byte sequence. A last beat that is half full holds `x` in its other lane. -/
def pack (x : Byte) : List Byte → List Word
  | a :: b :: bs => lanes a b :: pack x bs
  | [a] => [lanes a x]
  | [] => []

def be16 (w : BitVec 16) : List Byte := [w.extractLsb' 8 8, w.extractLsb' 0 8]

theorem length_pack (x : Byte) (bs : List Byte) : (pack x bs).length = (bs.length + 1) / 2 := by
  fun_induction pack x bs with
  | case1 a b bs ih =>
    simp only [List.length_cons, ih]
    omega
  | case2 a => simp
  | case3 => simp

theorem pack_append (x : Byte) (as bs : List Byte) (he : as.length % 2 = 0) :
    pack x (as ++ bs) = pack x as ++ pack x bs := by
  fun_induction pack x as with
  | case1 a b as ih =>
    have hrest := ih (by simp only [List.length_cons] at he; omega)
    simp only [List.cons_append, pack, hrest]
  | case2 a => simp at he
  | case3 => rfl

theorem pack_be16 (x : Byte) (w : BitVec 16) (bs : List Byte) :
    pack x (be16 w ++ bs) = swapLanes w :: pack x bs := rfl

theorem pack_flatMap_be16 (x : Byte) (ws : List (BitVec 16)) (bs : List Byte) :
    pack x (ws.flatMap be16 ++ bs) = ws.map swapLanes ++ pack x bs := by
  induction ws with
  | nil => rfl
  | cons w ws ih =>
    rw [List.flatMap_cons, List.append_assoc, pack_be16, ih]
    rfl

theorem wordBytes_two (a b : Byte) : wordBytes (lanes a b) 2 = [a, b] := by
  rw [wordBytes, lane0_lanes, lane1_lanes]
  rfl

theorem wordBytes_one (a b : Byte) : wordBytes (lanes a b) 1 = [a] := by
  rw [wordBytes, lane0_lanes, lane1_lanes]
  rfl

theorem bytes_pack (x : Byte) (bs rest : List Byte) (len : BitVec 2)
    (hlen : len = if bs.length % 2 = 0 then 2 else 1) :
    (((pack x (bs ++ rest)).take ((bs.length + 1) / 2)).mapIdx fun j w =>
      wordBytes w (if j + 1 = (bs.length + 1) / 2 then len else 2)).flatten = bs := by
  fun_induction pack x bs with
  | case1 a b bs ih =>
    have hpar : (bs.length + 2) % 2 = bs.length % 2 := by omega
    have hn : (bs.length + 2 + 1) / 2 = (bs.length + 1) / 2 + 1 := by omega
    simp only [List.length_cons, hpar] at hlen
    have hfirst : (if 0 = (bs.length + 1) / 2 then len else 2) = 2 := by
      by_cases h0 : 0 = (bs.length + 1) / 2
      · have hnil : bs.length = 0 := by omega
        rw [if_pos h0, hlen, hnil]
        rfl
      · rw [if_neg h0]
    have hrest := ih hlen
    simp only [List.cons_append, pack, List.length_cons, hn, List.take_succ_cons,
      List.mapIdx_cons, List.flatten_cons, Nat.add_right_cancel_iff, hfirst,
      wordBytes_two, hrest, List.nil_append]
  | case2 a =>
    have hl : len = 1 := hlen
    cases rest with
    | nil =>
      simp [pack, hl]
      exact wordBytes_one a x
    | cons b rest =>
      simp [pack, hl]
      exact wordBytes_one a b
  | case3 => simp

theorem map_mapIdx (g : β → γ) (f : Nat → α → β) (l : List α) :
    (l.mapIdx f).map g = l.mapIdx fun j a => g (f j a) := by
  apply List.ext_getElem
  · simp
  · intro j _ _
    simp

theorem pack_drop (x : Byte) (bs : List Byte) (k : Nat) :
    (pack x bs).drop k = pack x (bs.drop (2 * k)) := by
  induction k generalizing bs with
  | zero => rfl
  | succ k ih =>
    obtain _ | ⟨a, _ | ⟨b, bs⟩⟩ := bs
    · rfl
    · have hnil : [a].drop (2 * (k + 1)) = [] := List.drop_eq_nil_of_le (by simp; omega)
      rw [hnil]
      exact List.drop_nil
    · exact ih bs

theorem bytes_beats (x : Byte) (bs : List Byte) (hlen : len = if bs.length % 2 = 0 then 2 else 1) :
    (Ipv4Rx.beats (pack x bs) len).flatMap (fun b => wordBytes b.data b.len) = bs := by
  have hbytes := bytes_pack x bs [] len hlen
  have hn : (pack x bs).length = (bs.length + 1) / 2 := length_pack x bs
  rw [List.append_nil, ← hn, List.take_length] at hbytes
  rwa [List.flatMap_def, Ipv4Rx.beats, map_mapIdx]

namespace MacRx

/-- A frame carries the bytes `bs`: a start on its first beat only and a term on its last one only,
which is a half or a full beat. -/
structure Carries (f : List Beat) (bs : List Byte) : Prop where
  start : ∀ k b, f[k]? = some b → (b.start = true ↔ k = 0)
  term : ∀ k b, f[k]? = some b → (b.term = true ↔ k + 1 = f.length)
  uncancelled : ∀ b ∈ f, b.cancel = false
  data : ∃ x, f.map Beat.data = pack x bs
  len : ∀ b ∈ f, b.term = true → b.len = if bs.length % 2 = 0 then 2 else 1

theorem carries_framed (x : Byte) (bs : List Byte) :
    Carries (framed (pack x bs) (if bs.length % 2 = 0 then 2 else 1)) bs where
  start _ _ := start_framed
  term _ _ := term_framed
  uncancelled _ := cancel_framed
  data := ⟨x, map_data_framed _ _⟩
  len _ hb ht := len_framed hb ht

theorem Carries.length_eq (h : Carries f bs) : f.length = (bs.length + 1) / 2 := by
  obtain ⟨x, hx⟩ := h.data
  rw [← length_pack x, ← hx, List.length_map]

theorem Carries.wellFormed (h : Carries f bs) (hlen : 2 * headLen p f < bs.length) :
    WellFormed p f := by
  have hl := h.length_eq
  refine ⟨⟨⟨h.start, ?_, ?_⟩, ?_⟩, h.uncancelled, ?_⟩
  · intro k b hb
    have hc := h.uncancelled b (List.mem_of_getElem? hb)
    rw [hc, ← h.term k b hb]
    simp
  · exact List.ne_nil_of_length_pos (by omega)
  · intro _
    omega
  · intro b hb ht
    rw [h.len b hb ht]
    split
    · exact .inr rfl
    · exact .inl rfl

theorem size_eq (hne : bs ≠ [])
    (hterm : ∀ k b, bs[k]? = some b → (b.term = true ↔ k + 1 = bs.length))
    (hlen : ∀ b ∈ bs, b.term = true → b.len = l) :
    size bs = 2 * (bs.length - 1) + l.toNat := by
  induction bs with
  | nil => exact absurd rfl hne
  | cons b bs ih =>
    have hb := hterm 0 b rfl
    by_cases hnil : bs = []
    · subst hnil
      have ht : b.term = true := hb.2 rfl
      simp [size, Beat.size, ht, hlen b List.mem_cons_self ht]
    · have hpos := List.length_pos_of_ne_nil hnil
      have ht : b.term = false := by
        rw [Bool.eq_false_iff]
        intro ht
        have := hb.1 ht
        simp only [List.length_cons] at this
        omega
      have hrest := ih hnil (fun k c hc => by simpa using hterm (k + 1) c hc)
        fun c hc => hlen c (List.mem_cons_of_mem _ hc)
      simp only [size, List.map_cons, List.sum_cons, List.length_cons, Beat.size, ht] at hrest ⊢
      simp only [Bool.false_eq_true, ↓reduceIte]
      omega

theorem Carries.size_payload (h : Carries f bs) (hlen : 2 * headLen p f < bs.length) :
    size (payload p f) = bs.length - 2 * headLen p f := by
  have hf := h.wellFormed hlen
  have hl := h.length_eq
  have hpl : (payload p f).length = f.length - headLen p f := List.length_drop
  rw [size_eq (List.ne_nil_of_length_pos (by omega)) hf.payload_term
    fun b hb => h.len b (List.mem_of_mem_drop hb), hpl]
  rcases Nat.mod_two_eq_zero_or_one bs.length with hm | hm
  · rw [if_pos hm, show (2 : BitVec 2).toNat = 2 from rfl]
    omega
  · rw [if_neg (by omega), show (1 : BitVec 2).toNat = 1 from rfl]
    omega

theorem layout_untagged (hmac : mac.length = 10) (hx : f.map Beat.data = mac ++ ipv4 :: ws) :
    headLen p f = 11 ∧ isIpv4 p f = true ∧ (payload p f).map Beat.data = ws := by
  have h10 : f[10]?.map Beat.data = some ipv4 := by
    rw [← List.getElem?_map, hx, List.getElem?_append_right (by omega), hmac]
    rfl
  have hl : headLen p f = 11 := by
    apply headLen_untagged
    rw [tagged, h10]
    cases p.vlanTag <;> rfl
  refine ⟨hl, ?_, ?_⟩
  · rw [isIpv4, hl, h10]
    rfl
  · rw [payload, List.map_drop, hx, hl, List.drop_append, List.drop_of_length_le (by omega), hmac]
    rfl

theorem layout_tagged (hv : p.vlanTag = true) (hmac : mac.length = 10)
    (hx : f.map Beat.data = mac ++ tpic :: tci :: ipv4 :: ws) :
    headLen p f = 13 ∧ isIpv4 p f = true ∧ (payload p f).map Beat.data = ws := by
  have h10 : f[10]?.map Beat.data = some tpic := by
    rw [← List.getElem?_map, hx, List.getElem?_append_right (by omega), hmac]
    rfl
  have h12 : f[12]?.map Beat.data = some ipv4 := by
    rw [← List.getElem?_map, hx, List.getElem?_append_right (by omega), hmac]
    rfl
  have hl : headLen p f = 13 := by
    apply headLen_tagged
    rw [tagged, h10, hv]
    rfl
  refine ⟨hl, ?_, ?_⟩
  · rw [isIpv4, hl, h12]
    rfl
  · rw [payload, List.map_drop, hx, hl, List.drop_append, List.drop_of_length_le (by omega), hmac]
    rfl

theorem Carries.bytes_handed (h : Carries f bs) (hlen : 2 * headLen p f < bs.length)
    (hip : isIpv4 p f = true) :
    (handed p f).flatMap (fun b => wordBytes b.data b.len) = bs.drop (2 * headLen p f) := by
  have hf := h.wellFormed hlen
  have hl := h.length_eq
  obtain ⟨x, hx⟩ := h.data
  have hwords : (payload p f).map Beat.data = pack x (bs.drop (2 * headLen p f)) := by
    rw [payload, List.map_drop, hx, pack_drop]
  have hpar : (bs.drop (2 * headLen p f)).length % 2 = bs.length % 2 := by
    rw [List.length_drop]
    omega
  have hlast : lastLen (payload p f) =
      if (bs.drop (2 * headLen p f)).length % 2 = 0 then 2 else 1 := by
    have hpos : headLen p f < f.length := by omega
    obtain ⟨b, hb⟩ : ∃ b, f[f.length - 1]? = some b := ⟨_, List.getElem?_eq_getElem (by omega)⟩
    have hb' : (payload p f).getLast? = some b := by
      rw [payload, List.getLast?_drop, if_neg (by omega), List.getLast?_eq_getElem?, hb]
    have ht := (h.term _ b hb).2 (by omega)
    rw [lastLen, hb', hpar, ← h.len b (List.mem_of_getElem? hb) ht]
    rfl
  rw [handed_ipv4 hip, show f.drop (headLen p f) = payload p f from rfl,
    packet_eq hf.payload_term, hwords]
  exact bytes_beats x _ hlast

end MacRx

end LowLatencyEthernet
