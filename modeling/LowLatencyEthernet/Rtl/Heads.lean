import LowLatencyEthernet.Rtl.Lanes

namespace LowLatencyEthernet
set_option autoImplicit true

/-! The headers that are sent, each one number whose low byte is byte 0. -/

namespace UdpHeadTx

structure Params where
  dstPort : BitVec 16
  srcPort : BitVec 16
  hasCs : Bool
deriving DecidableEq, Repr

def headN : BitVec 16 := 8

def cs (p : Params) (csI : BitVec 16) : BitVec 16 := if p.hasCs then csI else 0

def len (lenI : BitVec 16) : BitVec 16 := lenI + headN

def headO (p : Params) (lenI csI : BitVec 16) : BitVec 64 :=
  cs p csI ++ len lenI ++ p.dstPort ++ p.srcPort

end UdpHeadTx

namespace Ipv4HeadTx

/-- The defaults: expedited forwarding, no congestion notification, and the protocol UDP. -/
structure Params where
  srcAddr : BitVec 32
  dstAddr : BitVec 32
  dscp : BitVec 6 := 0x2e
  enc : BitVec 2 := 0
  ttl : BitVec 8 := 64
  protocol : BitVec 8 := 17
deriving DecidableEq, Repr

def version : BitVec 4 := 4

def ihl : BitVec 4 := 5

def fragId : BitVec 16 := 0

def fragFlag : BitVec 3 := 3

def fragOff : BitVec 13 := 0

def headLen : BitVec 16 := 20

/-- The sum of the fields that do not depend on the packet, without end-around carry. -/
def csBaseVal (p : Params) : BitVec 16 :=
  (version ++ ihl ++ p.dscp ++ p.enc) + headLen + fragId + (fragFlag ++ fragOff) +
    (p.ttl ++ p.protocol) +
    p.srcAddr.extractLsb' 16 16 + p.srcAddr.extractLsb' 0 16 +
    p.dstAddr.extractLsb' 16 16 + p.dstAddr.extractLsb' 0 16

def totLen (dataLenI : BitVec 16) : BitVec 16 := dataLenI + headLen

def cs (p : Params) (dataLenI : BitVec 16) : BitVec 16 := csBaseVal p + dataLenI

def headO (p : Params) (dataLenI : BitVec 16) : BitVec 160 :=
  p.dstAddr ++ p.srcAddr ++ cs p dataLenI ++ p.protocol ++ p.ttl ++ fragOff ++ fragFlag ++
    fragId ++ totLen dataLenI ++ p.enc ++ p.dscp ++ ihl ++ version

end Ipv4HeadTx

namespace MacHeadTx

structure Params where
  vlanTag : Bool
  srcAddr : BitVec 48
  dstAddr : BitVec 48
deriving DecidableEq, Repr

/-- Bytes of the header: a preamble of 8, two addresses of 6, a tag of 4 and a type of 2. -/
def headN (p : Params) : Nat := 20 + (if p.vlanTag then 4 else 0) + 2

def pre : BitVec 64 := 0xaaaaaaaaaaaaaa#56 ++ 0xab#8

def hType : BitVec 16 := 0x0800

def tpic : BitVec 16 := 0x8100

def dei : BitVec 1 := 0

def pcp : BitVec 3 := 0

def vid : BitVec 12 := 1

def vtag : BitVec 32 := vid ++ dei ++ pcp ++ tpic

def lsbHead (p : Params) : BitVec 160 := p.srcAddr ++ p.dstAddr ++ pre

def headO (p : Params) : BitVec (8 * headN p) :=
  if p.vlanTag then (hType ++ vtag ++ lsbHead p).setWidth _ else (hType ++ lsbHead p).setWidth _

end MacHeadTx

end LowLatencyEthernet
