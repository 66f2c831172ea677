import PadMule.Kad.RoutingTable

/-
  `mule-files/src/nodes_dat.rs`: the contacts of the routing table on disk.

  A zero, the version, a count and the records, with a verify key and the verified bit from
  version 2 on. Older versions read too, the oldest as an empty list. What is written reads back as
  it was, up to the cap on the contacts (`readNodesDat_writeNodesDat`).
-/

namespace PadMule.Files

open PadMule.Proto PadMule.Kad Readers

deriving instance DecidableEq for KadContact

def NODES_DAT_VERSION : UInt32 := 2

/-- Contacts in a written file. -/
def MAX_NODES : Nat := 200

structure NodesDat where
  version : UInt32
  contacts : List KadContact
deriving DecidableEq

/-- A record, with a key and the verified bit unless it is `short`. -/
def readKadContact (short : Bool) : Reader KadContact := do
  let id ← readDigest 16
  let ip ← readU32
  let udpPort ← readU16
  let tcpPort ← readU16
  let version ← readU8
  if short then
    return ⟨.fromWire id, ip, udpPort, tcpPort, version, 0, 0, false⟩
  else
    let udpKey ← readU32
    let udpKeyIp ← readU32
    let verified ← readU8
    return ⟨.fromWire id, ip, udpPort, tcpPort, version, udpKey, udpKeyIp, verified ≠ 0⟩

/-- The edition of a bootstrap file, which only version 3 states. -/
def readBootstrap (version : UInt32) : Reader Bool :=
  if version = 3 then do return (← readU32) = 1 else return false

def readNodesDatFrom : Reader NodesDat := do
  let first ← readU32
  if first ≠ 0 then return ⟨0, []⟩
  else
    let version ← readU32
    if 3 < version then throw (.badHeader (min version 255).toUInt8)
    else if version = 0 then return ⟨0, []⟩
    else
      let bootstrap ← readBootstrap version
      let count ← readU32
      return ⟨version, ← readMany (readKadContact (version = 1 || bootstrap)) count.toNat⟩

/-- `read_nodes_dat`; bytes after the last record are ignored. -/
def readNodesDat (bytes : Bytes) : Except IoError NodesDat :=
  (readNodesDatFrom bytes).map Prod.fst

def writeKadContact (c : KadContact) : Bytes :=
  c.id.toWire.bytes ++ (writeU32 c.ip ++ (writeU16 c.udpPort ++ (writeU16 c.tcpPort ++
    (writeU8 c.version ++ (writeU32 c.udpKey ++ (writeU32 c.udpKeyIp ++
      writeU8 c.verified.toUInt8))))))

/-- `write_nodes_dat`, in version 2 whatever was read. -/
def writeNodesDat (n : NodesDat) : Bytes :=
  let contacts := n.contacts.take MAX_NODES
  writeU32 0 ++ (writeU32 NODES_DAT_VERSION ++
    (writeU32 (.ofNat contacts.length) ++ contacts.flatMap writeKadContact))

theorem reads_kadContact (c : KadContact) :
    Reads (readKadContact false) (writeKadContact c) c := by
  have hverified : decide (c.verified.toUInt8 ≠ 0) = c.verified := by cases c.verified <;> rfl
  have hreads : Reads (readKadContact false) (writeKadContact c)
      ⟨.fromWire c.id.toWire, c.ip, c.udpPort, c.tcpPort, c.version, c.udpKey, c.udpKeyIp,
        decide (c.verified.toUInt8 ≠ 0)⟩ :=
    (reads_digest c.id.toWire).bind <| (reads_u32 c.ip).bind <| (reads_u16 c.udpPort).bind <|
      (reads_u16 c.tcpPort).bind <| (reads_u8 c.version).bind <| (reads_u32 c.udpKey).bind <|
        (reads_u32 c.udpKeyIp).bind (reads_u8 c.verified.toUInt8).bind_pure
  rwa [Kad128.fromWire_toWire, hverified] at hreads

theorem readNodesDat_writeNodesDat (n : NodesDat) :
    readNodesDat (writeNodesDat n) = .ok ⟨NODES_DAT_VERSION, n.contacts.take MAX_NODES⟩ := by
  have hlen : (n.contacts.take MAX_NODES).length < 2 ^ 32 := by
    rw [List.length_take]
    exact (Nat.min_le_left _ _).trans_lt (by decide)
  have hcount : (UInt32.ofNat (n.contacts.take MAX_NODES).length).toNat =
      (n.contacts.take MAX_NODES).length := UInt32.toNat_ofNat_of_lt' hlen
  have hedition : Reads (readBootstrap NODES_DAT_VERSION) [] false := Reads.pure false
  have hreads : Reads readNodesDatFrom (writeNodesDat n)
      ⟨NODES_DAT_VERSION, n.contacts.take MAX_NODES⟩ := by
    refine (reads_u32 0).bind ?_
    rw [if_neg (by decide)]
    refine (reads_u32 NODES_DAT_VERSION).bind ?_
    rw [if_neg (by decide), if_neg (by decide)]
    refine hedition.bind ((reads_u32 _).bind ?_)
    rw [hcount]
    exact (Reads.many fun c _ => reads_kadContact c).bind_pure
  unfold readNodesDat
  rw [hreads.run_nil]
  rfl

end PadMule.Files
