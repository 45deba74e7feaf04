import LowLatencyEthernet.Tb.EthNodes
import LowLatencyEthernet.Tb.EthTbRuns
import LowLatencyEthernet.Tb.VpiArrays

namespace LowLatencyEthernet.Vpi
set_option autoImplicit true

open Tb EthTb

/-! The calls `$tb_mac` and `$tb_trans` with the variables of `eth_tb` they write, `vpi_i`. -/

inductive Var where
  | macValidI
  | phyCancelI
  | macDataI
  | macStartI
  | macTermI
  | macLenI
  | pktDebugIdI
  | tbExpAppValidO
  | tbExpAppStartO
  | tbExpAppLenO
  | tbExpAppDataO
  | tbExpAppDebugIdO
deriving DecidableEq, Repr

def Var.width : Var → Nat
  | .macDataI | .tbExpAppDataO => 16
  | .macLenI | .tbExpAppLenO => 2
  | .pktDebugIdI | .tbExpAppDebugIdO => 32
  | _ => 1

/-- The bits of all variables, the lowest first. -/
abbrev Store := Var → List Logic

/-- `vpi_put_value`. A value that is too short for the variable is read past its end. -/
def putValue (h : Var) (v : Value) (st : Store) : Option Store := do
  let bits ← (List.range h.width).mapM v.bit
  some (Function.update st h bits)

def boolByte (b : Bool) : Byte := (BitVec.ofBool b).setWidth 8

def tbMacRxPut (hValidI hCancelI hDataI hStartI hTermI hLenI hDebugIdI : Var) (mac : MacIntf)
    (st : Store) : Option Store := do
  let st ← putValue hValidI (putLogic1b (boolByte mac.valid)) st
  let st ← putValue hCancelI (putLogic1b (boolByte mac.cancel)) st
  let st ← putValue hDataI (putLogicUint16 mac.data) st
  let st ← putValue hStartI (putLogicUint8 (getMacStart mac)) st
  let st ← putValue hTermI (putLogic1b (boolByte mac.term)) st
  let st ← putValue hLenI (putLogicUint8 mac.len) st
  putValue hDebugIdI (putLogicUint32 mac.id) st

def tbUdpDataRxPut (hValidO hDataO hLenO hStartO hDebugIdO : Var) (e : Expected) (st : Store) :
    Option Store := do
  let st ← putValue hValidO (putLogic1b (boolByte e.valid)) st
  let st ← putValue hDataO (putLogicUint16 e.data) st
  let st ← putValue hLenO (putLogicUint8 e.len) st
  let st ← putValue hStartO (putLogic1b (boolByte e.start)) st
  putValue hDebugIdO (putLogicUint32 e.id) st

-- A call with too few arguments fails an assertion, and further ones are not scanned.
def tbMacCalltf (argv : List Var) (mac : MacIntf) (st : Store) : Option Store :=
  match argv with
  | hValidI :: hCancelI :: hDataI :: hStartI :: hTermI :: hLenI :: hDebugIdI :: _ =>
    tbMacRxPut hValidI hCancelI hDataI hStartI hTermI hLenI hDebugIdI mac st
  | _ => none

def tbTransCalltf (argv : List Var) (e : Expected) (st : Store) : Option Store :=
  match argv with
  | hValidO :: hStartO :: hLenO :: hDataO :: hDebugIdO :: _ =>
    tbUdpDataRxPut hValidO hDataO hLenO hStartO hDebugIdO e st
  | _ => none

def tbMacArgs : List Var :=
  [.macValidI, .phyCancelI, .macDataI, .macStartI, .macTermI, .macLenI, .pktDebugIdI]

def tbTransArgs : List Var :=
  [.tbExpAppValidO, .tbExpAppStartO, .tbExpAppLenO, .tbExpAppDataO, .tbExpAppDebugIdO]

def known (v : BitVec n) : List Logic := (List.range n).map fun k => .of (v.getLsbD k) false

theorem mapM_some {f : α → Option β} {g : α → β} {l : List α} (h : ∀ a ∈ l, f a = some (g a)) :
    l.mapM f = some (l.map g) := by
  induction l with
  | nil => rfl
  | cons a l ih =>
    rw [List.mapM_cons, h a List.mem_cons_self, ih fun b hb => h b (List.mem_cons_of_mem a hb)]
    rfl

theorem putValue_known {v : BitVec n} {val : Value} (hw : h.width = n)
    (hbit : ∀ k < n, val.bit k = some (.of (v.getLsbD k) false)) (st : Store) :
    putValue h val st = some (Function.update st h (known v)) := by
  subst hw
  have hbits := mapM_some (l := List.range h.width) fun k hk => hbit k (List.mem_range.1 hk)
  rw [putValue, hbits]
  rfl

theorem bit_logic1b (b : Bool) : ∀ k < 1,
    (putLogic1b (boolByte b)).bit k = some (.of ((BitVec.ofBool b).getLsbD k) false) := by
  intro k hk
  obtain rfl := Nat.lt_one_iff.1 hk
  cases b <;> rfl

theorem bit_uint32 (v : BitVec 32) (hk : k < 32) :
    (putLogicUint32 v).bit k = some (.of (v.getLsbD k) false) := by
  have hdiv : k / 32 = 0 := by omega
  have hmod : k % 32 = k := by omega
  rw [putLogicUint32, Value.bit, hdiv, hmod, List.getElem?_cons_zero, Option.map_some]
  simp

theorem bit_uint16 (v : BitVec 16) : ∀ k < 16,
    (putLogicUint16 v).bit k = some (.of (v.getLsbD k) false) := by
  intro k hk
  have hlt : k < 32 := by omega
  rw [putLogicUint16, bit_uint32 _ hlt, BitVec.getLsbD_setWidth, decide_eq_true hlt, Bool.true_and]

/-- The unknown bits of a put of 8 bits do not reach a variable of fewer. -/
theorem bit_uint8 (v : Byte) (hn : n ≤ 8) : ∀ k < n,
    (putLogicUint8 v).bit k = some (.of ((v.setWidth n).getLsbD k) false) := by
  intro k hk
  have hdiv : k / 8 = 0 := by omega
  have hmod : k % 8 = k := by omega
  rw [uint8_eq, bit_charVarArr, hdiv, hmod, List.getElem?_cons_zero, BitVec.getLsbD_setWidth,
    decide_eq_true hk, Bool.true_and]

/-- The inputs of the receive path hold `i`, and no other variable has changed. -/
structure Drives (i : EthRx.In) (id : DebugId) (st st' : Store) : Prop where
  macValidI : st' .macValidI = known (BitVec.ofBool i.macValidI)
  phyCancelI : st' .phyCancelI = known (BitVec.ofBool i.phyCancelI)
  macDataI : st' .macDataI = known i.macDataI
  macStartI : st' .macStartI = known (BitVec.ofBool i.macStartI)
  macTermI : st' .macTermI = known (BitVec.ofBool i.macTermI)
  macLenI : st' .macLenI = known i.macLenI
  pktDebugIdI : st' .pktDebugIdI = known id
  others : ∀ v, v ∉ tbMacArgs → st' v = st v

/-- The expected values are `e`, the length cut to its variable. -/
structure Expects (e : Expected) (st st' : Store) : Prop where
  valid : st' .tbExpAppValidO = known (BitVec.ofBool e.valid)
  start : st' .tbExpAppStartO = known (BitVec.ofBool e.start)
  len : st' .tbExpAppLenO = known (e.len.setWidth 2)
  data : st' .tbExpAppDataO = known e.data
  id : st' .tbExpAppDebugIdO = known e.id
  others : ∀ v, v ∉ tbTransArgs → st' v = st v

theorem setWidth_one (v : Byte) : v.setWidth 1 = BitVec.ofBool (v.getLsbD 0) := by
  apply BitVec.eq_of_getLsbD_eq
  intro i hi
  obtain rfl := Nat.lt_one_iff.1 hi
  simp

theorem tbMac_drives (mac : MacIntf) (st : Store) : ∃ st',
    tbMacCalltf tbMacArgs mac st = some st' ∧ Drives (tbMac mac) mac.id st st' := by
  have hstart := bit_uint8 (n := 1) (getMacStart mac) (by decide)
  rw [setWidth_one] at hstart
  simp only [tbMacCalltf, tbMacArgs, tbMacRxPut,
    putValue_known (h := .macValidI) rfl (bit_logic1b mac.valid),
    putValue_known (h := .phyCancelI) rfl (bit_logic1b mac.cancel),
    putValue_known (h := .macDataI) rfl (bit_uint16 mac.data),
    putValue_known (h := .macStartI) rfl hstart,
    putValue_known (h := .macTermI) rfl (bit_logic1b mac.term),
    putValue_known (h := .macLenI) rfl (bit_uint8 mac.len (by decide)),
    putValue_known (h := .pktDebugIdI) rfl fun k hk => bit_uint32 mac.id hk,
    Option.bind_eq_bind, Option.bind_some]
  refine ⟨_, rfl, rfl, rfl, rfl, rfl, rfl, rfl, rfl, fun v hv => ?_⟩
  cases v <;> first | rfl | exact absurd (by decide) hv

theorem tbTrans_expects (e : Expected) (st : Store) : ∃ st',
    tbTransCalltf tbTransArgs e st = some st' ∧ Expects e st st' := by
  simp only [tbTransCalltf, tbTransArgs, tbUdpDataRxPut,
    putValue_known (h := .tbExpAppValidO) rfl (bit_logic1b e.valid),
    putValue_known (h := .tbExpAppDataO) rfl (bit_uint16 e.data),
    putValue_known (h := .tbExpAppLenO) rfl (bit_uint8 e.len (by decide)),
    putValue_known (h := .tbExpAppStartO) rfl (bit_logic1b e.start),
    putValue_known (h := .tbExpAppDebugIdO) rfl fun k hk => bit_uint32 e.id hk,
    Option.bind_eq_bind, Option.bind_some]
  refine ⟨_, rfl, rfl, rfl, rfl, rfl, rfl, fun v hv => ?_⟩
  cases v <;> first | rfl | exact absurd (by decide) hv

/-- The inputs of a cycle are those of the entry it drives, and it compares with the values
expected. -/
structure Called (c : EthTb.Cycle ε) : Prop where
  input : ∀ mac ∈ c.mac, c.input = tbMac mac
  asserts : ∀ d ∈ c.check, d.asserts = EthTb.compare (.of d.entry) d.out

theorem posedge_called {st : State ε} {i : EthRx.In} :
    ∀ d ∈ (posedge st i).1, d.asserts = EthTb.compare (.of d.entry) d.out :=
  fun d hd => ((posedge_clocked st i).sound d hd).asserts

theorem step_called {st st' : State ε} (h : step seed lib i x st = some (c, st')) : Called c := by
  by_cases hi : i % 33 = 0
  · rw [step, if_pos hi] at h
    obtain rfl : _ = c := (Prod.mk.inj (Option.some.inj h)).1
    exact ⟨fun mac hmac => absurd hmac (Option.not_mem_none mac), posedge_called⟩
  · rw [step, if_neg hi] at h
    obtain ⟨⟨gens, mac, tb⟩, -, h⟩ := Option.bind_eq_some_iff.1 h
    obtain rfl : _ = c := (Prod.mk.inj (Option.some.inj h)).1
    exact ⟨fun mac' hmac => congrArg tbMac (Option.mem_some_iff.1 hmac), posedge_called⟩

theorem loop_called {cs : List (EthTb.Cycle ε)} {st st' : State ε}
    (h : loop seed lib i xs st = some (cs, st')) : ∀ c ∈ cs, Called c := by
  induction xs generalizing i st st' cs with
  | nil =>
    obtain rfl : [] = cs := (Prod.mk.inj (Option.some.inj h)).1
    exact fun _ hc => absurd hc List.not_mem_nil
  | cons x xs ih =>
    obtain ⟨⟨c, st₁⟩, hstep, h⟩ := Option.bind_eq_some_iff.1 h
    obtain ⟨⟨cs', st₂⟩, hloop, h⟩ := Option.bind_eq_some_iff.1 h
    obtain rfl : c :: cs' = cs := (Prod.mk.inj (Option.some.inj h)).1
    intro d hd
    rcases List.mem_cons.1 hd with rfl | hd
    · exact step_called hstep
    · exact ih hloop d hd

theorem run_called {order : {as : List RandArg // as.Perm RandArg.all}} {cs : List (EthTb.Cycle ε)}
    {st : State ε} (h : run seed lib order m₀ x₀ x₁ xs = some (cs, st)) : ∀ c ∈ cs, Called c := by
  obtain ⟨⟨c, st₁⟩, hinit, h⟩ := Option.bind_eq_some_iff.1 h
  obtain ⟨⟨cs', st₂⟩, hloop, h⟩ := Option.bind_eq_some_iff.1 h
  obtain rfl : c :: cs' = cs := (Prod.mk.inj (Option.some.inj h)).1
  intro d hd
  rcases List.mem_cons.1 hd with rfl | hd
  · obtain ⟨⟨gen, tb⟩, -, hinit⟩ := Option.bind_eq_some_iff.1 hinit
    have hc : ⟨[gen], none, setRxIdle x₁,
        (posedge ⟨tb, EthRx.reset ethRxParams m₀ x₀⟩ (setRxIdle x₁)).1⟩ = d :=
      (Prod.mk.inj (Option.some.inj hinit)).1
    rw [← hc]
    exact ⟨fun mac hmac => absurd hmac (Option.not_mem_none mac), posedge_called⟩
  · exact loop_called hloop d hd

/-- In every cycle of every simulation the calls put known bits only: the inputs of the receive path
are those of the entry that is driven, and the values it is compared with those of the entry that is
expected. -/
theorem run_puts {order : {as : List RandArg // as.Perm RandArg.all}} {cs : List (EthTb.Cycle ε)}
    {st : State ε} (h : run seed lib order m₀ x₀ x₁ xs = some (cs, st)) (store : Store) :
    ∀ c ∈ cs,
      (∀ mac ∈ c.mac, ∃ store', tbMacCalltf tbMacArgs mac store = some store' ∧
        Drives c.input mac.id store store') ∧
      ∀ d ∈ c.check, d.asserts = EthTb.compare (.of d.entry) d.out ∧
        ∃ store', tbTransCalltf tbTransArgs (.of d.entry) store = some store' ∧
          Expects (.of d.entry) store store' := by
  intro c hc
  have hcalled := run_called h c hc
  refine ⟨fun mac hmac => ?_, fun d hd => ⟨hcalled.asserts d hd, tbTrans_expects _ store⟩⟩
  rw [hcalled.input mac hmac]
  exact tbMac_drives mac store

theorem run_puts_sample : ∃ cs st,
    run 10 sampleInit ⟨RandArg.all, .refl _⟩ default default default [default, default] =
        some (cs, st) ∧
      ∀ c ∈ cs,
        (∀ mac ∈ c.mac, ∃ store', tbMacCalltf tbMacArgs mac (fun _ => []) = some store' ∧
          Drives c.input mac.id (fun _ => []) store') ∧
        ∀ d ∈ c.check, d.asserts = EthTb.compare (.of d.entry) d.out ∧
          ∃ store', tbTransCalltf tbTransArgs (.of d.entry) (fun _ => []) = some store' ∧
            Expects (.of d.entry) (fun _ => []) store' := by
  obtain ⟨cs, st, hrun, -⟩ := run_spec (P := fun _ => True) ⟨RandArg.all, .refl _⟩
    sampleInit_writes.keeps default default default ⟨trivial, fun _ _ _ => trivial⟩
    [default, default]
  exact ⟨cs, st, hrun, run_puts hrun fun _ => []⟩

end LowLatencyEthernet.Vpi
