import LowLatencyEthernet.Rtl.EthRx
import LowLatencyEthernet.Tb.Bench

namespace LowLatencyEthernet.EthTb
set_option autoImplicit true

open Tb

/-! The receive side of the simulation `eth_tb`: the test bench and `eth_rx`, clock by clock. A bit
that is `x` in the source may be anything here. -/

def ethRxParams : EthRx.Params where
  vlanTag := true
  matchIpSrcAddr := true
  matchIpDstAddr := true
  ipSrcAddr := 1
  ipDstAddr := 0
  srcPort := 18070
  dstPort := 18070

structure State (ε : Type) where
  tb : TbState ε
  mEthRx : EthRx.State

def getMacStart (mac : MacIntf) : BitVec 8 := (BitVec.ofBool mac.start).setWidth 8

def tbMac (mac : MacIntf) : EthRx.In where
  phyCancelI := mac.cancel
  macValidI := mac.valid
  macDataI := mac.data
  macStartI := (getMacStart mac).getLsbD 0
  macTermI := mac.term
  macLenI := mac.len.setWidth 2

def setRxIdle (x : EthRx.In) : EthRx.In :=
  { x with phyCancelI := false, macValidI := false, macStartI := false, macTermI := false
           macLenI := 0 }

def invalidCycle (x : EthRx.In) : EthRx.In := { x with phyCancelI := false, macValidI := false }

/-- The outcome of the assertions. -/
structure Asserts where
  valid : Bool
  start : Bool
  len : Bool
  data : Bool
deriving DecidableEq, Repr

def checkTermDataMatch (expLen : BitVec 2) (expData appData : Word) : Bool :=
  (List.range expLen.toNat).all fun i =>
    appData.extractLsb' (i * 8) 8 == expData.extractLsb' (i * 8) 8

def compare (e : Expected) (o : EthRx.Out) : Asserts where
  valid := e.valid == o.appValidO
  start := e.start == o.appStartO
  len := e.len.setWidth 2 == o.appLenO
  data := checkTermDataMatch (e.len.setWidth 2) e.data o.appDataO

/-- A comparison: the outputs, the entry that was at the head of the fifo and the assertions. -/
structure Check where
  out : EthRx.Out
  entry : Option TransData
  asserts : Asserts
deriving DecidableEq, Repr

def posedge (st : State ε) (i : EthRx.In) : Option Check × State ε :=
  let o := EthRx.out st.mEthRx i
  let mEthRx := EthRx.next ethRxParams true st.mEthRx i
  if o.appValidO then
    let (e, tb) := tbUdpDataRx st.tb
    (some ⟨o, st.tb.tv.dataFifo.head?, compare e o⟩, ⟨tb, mEthRx⟩)
  else (none, ⟨st.tb, mEthRx⟩)

/-- What happens in a clock cycle: the packets that are generated, the entry that is driven, the
inputs and the comparison. -/
structure Cycle (ε : Type) where
  gens : List (Gen ε)
  mac : Option MacIntf
  input : EthRx.In
  check : Option Check

variable (seed : BitVec 16) (lib : EthInit ε) (order : {as : List RandArg // as.Perm RandArg.all})

def step (i : Nat) (x : EthRx.In) (st : State ε) : Option (Cycle ε × State ε) :=
  if i % 33 = 0 then
    let input := invalidCycle x
    let (check, st) := posedge st input
    some (⟨[], none, input, check⟩, st)
  else do
    let (gens, mac, tb) ← tbMacRx seed lib 2 st.tb
    let (check, st) := posedge { st with tb := tb } (tbMac mac)
    some (⟨gens, some mac, tbMac mac, check⟩, st)

def loop (i : Nat) (xs : List EthRx.In) (st : State ε) : Option (List (Cycle ε) × State ε) :=
  match xs with
  | [] => some ([], st)
  | x :: xs => do
    let (c, st) ← step seed lib i x st
    let (cs, st) ← loop (i + 1) xs st
    some (c :: cs, st)

def init (m₀ : EthRx.State) (x₀ x₁ : EthRx.In) : Option (Cycle ε × State ε) := do
  let (gen, tb) ← initTb seed lib order ⟨false, 0⟩
  let input := setRxIdle x₁
  let (check, st) := posedge ⟨tb, EthRx.reset ethRxParams m₀ x₀⟩ input
  some (⟨[gen], none, input, check⟩, st)

/-- The simulation with any number of passes. -/
def run (m₀ : EthRx.State) (x₀ x₁ : EthRx.In) (xs : List EthRx.In) :
    Option (List (Cycle ε) × State ε) := do
  let (c, st) ← init seed lib order m₀ x₀ x₁
  let (cs, st) ← loop seed lib 0 xs st
  some (c :: cs, st)

end LowLatencyEthernet.EthTb
