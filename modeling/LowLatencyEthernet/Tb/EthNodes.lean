import LowLatencyEthernet.Beat.Delivery
import LowLatencyEthernet.Tb.BenchRuns

namespace LowLatencyEthernet.Tb
set_option autoImplicit true

/-- The receive path that the datagrams of a node conform to. -/
def EthArgs.rxParams (args : EthArgs) : EthRx.Params :=
  ⟨true, true, true, args.srcIp, args.dstIp, args.srcPort, args.dstPort⟩

/-- What the ethernet library is for: a node writes datagrams with the payload it has been given,
between the addresses and the ports it is made with. -/
structure EthInit.Writes (lib : EthInit ε) (Is : EthArgs → ε → Prop) : Prop where
  init : ∀ args, Is args (lib.initEthPacket args)
  update : ∀ {args node} data, Is args node → Is args (lib.updateEthPacketData node data)
  write : ∀ {args node} data, Is args node → data ≠ [] → data.length ≤ TbRand.packetLenMax →
    ∃ d : EthRx.Datagram args.rxParams,
      lib.writeEthPacket (lib.updateEthPacketData node data) = d.bytes ∧ d.payload = data ∧
        d.ipSrc = args.srcIp ∧ d.ipDst = args.dstIp

theorem EthInit.Writes.keeps {lib : EthInit ε} (h : lib.Writes Is) : lib.Keeps Is where
  init := h.init
  update := h.update
  long data his hmin hmax := by
    have hne : data ≠ [] := List.ne_nil_of_length_pos (Nat.lt_of_lt_of_le (by decide) hmin)
    obtain ⟨d, hd, -⟩ := h.write data his hne (Nat.le_of_lt hmax)
    rw [hd, d.length_bytes]
    omega

theorem no_options_even : ([] : List (BitVec 16)).length % 2 = 0 := rfl

theorem no_options_length : ([] : List (BitVec 16)).length ≤ 20 := Nat.zero_le _

theorem sample_size {data : List Byte} (h : data.length ≤ TbRand.packetLenMax) :
    28 + 2 * ([] : List (BitVec 16)).length + data.length ≤ 65535 := by
  unfold TbRand.packetLenMax at h
  rw [List.length_nil]
  omega

def sampleDatagram (args : EthArgs) (data : List Byte) (hne : data ≠ [])
    (hlen : data.length ≤ TbRand.packetLenMax) : EthRx.Datagram args.rxParams where
  preamble := List.replicate 7 0x55 ++ [0xd5]
  macDst := args.dstMac.toList
  macSrc := args.srcMac.toList
  tci := if args.vtag then some 0xaa else none
  tos := 0
  ident := 0
  ttl := 64
  ipSrc := args.srcIp
  ipDst := args.dstIp
  options := []
  udpLen := BitVec.ofNat 16 (8 + data.length)
  udpChecksum := 0
  payload := data
  padding := []
  fcs := List.replicate 4 0
  preamble_length := rfl
  macDst_length := Vector.length_toList
  macSrc_length := Vector.length_toList
  tci_vlan _ := rfl
  options_even := no_options_even
  options_length := no_options_length
  payload_ne := hne
  fcs_length := rfl
  size := sample_size hlen

def sampleInit : EthInit (EthArgs × List Byte) where
  initEthPacket args := (args, [])
  updateEthPacketData node data := (node.1, data)
  writeEthPacket node :=
    if h : node.2 ≠ [] ∧ node.2.length ≤ TbRand.packetLenMax then
      (sampleDatagram node.1 node.2 h.1 h.2).bytes
    else []
  getHeadLen node := if node.1.vtag then 54 else 50

theorem sampleInit_writes : sampleInit.Writes fun args node => node.1 = args where
  init _ := rfl
  update _ his := his
  write := by
    rintro _ node data rfl hne hlen
    exact ⟨sampleDatagram node.1 data hne hlen, dif_pos ⟨hne, hlen⟩, rfl, rfl, rfl⟩

end LowLatencyEthernet.Tb
