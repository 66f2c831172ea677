import PadMule.Proto.Hash

/-
  `mule-proto/src/packet.rs`: one framed eD2k/eMule packet.
-/

namespace PadMule.Proto

def PROT_EDONKEY : UInt8 := 0xE3
def PROT_EMULE : UInt8 := 0xC5

structure Packet where
  protocol : UInt8
  opcode : UInt8
  payload : Bytes
deriving DecidableEq, Repr

end PadMule.Proto
