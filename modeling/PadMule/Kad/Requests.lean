import PadMule.Kad.Message

/-
  `mule-kad/src/message.rs`: the messages of the handshake and of routing.

  A HELLO names its sender and may tell its UDP port and its options; only these two tags are read,
  the last of each kind counts, and a port that is none is not taken. A request for contacts has
  its count in five bits, and a count of 0 is no request.
-/

namespace PadMule.Kad

open PadMule.Proto
open Readers LittleEndian

def OP_BOOTSTRAP_REQ : UInt8 := 0x01
def OP_HELLO_REQ : UInt8 := 0x11
def OP_HELLO_RES : UInt8 := 0x19
def OP_KAD2_REQ : UInt8 := 0x21
def OP_PING : UInt8 := 0x60
def OP_PONG : UInt8 := 0x61

/-- The version in every contact of ourselves. -/
def KADEMLIA_VERSION : UInt8 := 0x08

def TAG_KADMISCOPTIONS : UInt8 := 0xF2

/-! ## PING and BOOTSTRAP_REQ -/

def buildPing : UInt8 × Bytes := (OP_PING, [])

/-- It tells the port the ping came from. -/
def buildPong (requesterUdpPort : UInt16) : UInt8 × Bytes := (OP_PONG, writeU16 requesterUdpPort)

/-! ## HELLO -/

structure Hello where
  id : Kad128
  tcpPort : UInt16
  version : UInt8
  sourceUdpPort : Option UInt16
  miscOptions : Option UInt8
deriving DecidableEq

def detailTags (sourceUdpPort : Option UInt16) (miscOptions : Option UInt8) : List KadTag :=
  (sourceUdpPort.map fun p => KadTag.mk TAG_SOURCEUPORT (.int p.toUInt64)).toList ++
    (miscOptions.map fun m => KadTag.mk TAG_KADMISCOPTIONS (.int m.toUInt64)).toList

def buildMyDetails (id : Kad128) (tcpPort : UInt16) (sourceUdpPort : Option UInt16)
    (miscOptions : Option UInt8) : Bytes :=
  id.toWire.bytes ++ (writeU16 tcpPort ++ (writeU8 KADEMLIA_VERSION ++
    writeKadTaglist (detailTags sourceUdpPort miscOptions)))

def buildHelloReq (id : Kad128) (tcpPort : UInt16) (sourceUdpPort : Option UInt16)
    (miscOptions : Option UInt8) : UInt8 × Bytes :=
  (OP_HELLO_REQ, buildMyDetails id tcpPort sourceUdpPort miscOptions)

def buildHelloRes (id : Kad128) (tcpPort : UInt16) (sourceUdpPort : Option UInt16)
    (miscOptions : Option UInt8) : UInt8 × Bytes :=
  (OP_HELLO_RES, buildMyDetails id tcpPort sourceUdpPort miscOptions)

/-- One tag of a HELLO, behind what the tags in front of it said. -/
def noteDetail (known : Option UInt16 × Option UInt8) (t : KadTag) :
    Option UInt16 × Option UInt8 :=
  match t.value with
  | .int v =>
    if t.name = TAG_SOURCEUPORT then
      if 0 < v && v ≤ 0xFFFF then (some v.toUInt16, known.2) else known
    else if t.name = TAG_KADMISCOPTIONS then (known.1, some v.toUInt8)
    else known
  | _ => known

def parseHello (payload : Bytes) : Except IoError Hello :=
  let body : Reader Hello := do
    let id ← readId
    let tcpPort ← readU16
    let version ← readU8
    if version = 0 then throw (.badTag version)
    else
      let tags ← readKadTaglist
      let known := tags.foldl noteDetail (none, none)
      return ⟨id, tcpPort, version, known.1, known.2⟩
  body.run' payload

/-- No tags follow. -/
def buildHelloResAck (id : Kad128) : UInt8 × Bytes :=
  (OP_HELLO_RES_ACK, id.toWire.bytes ++ writeU8 0)

theorem parseHelloResAck_build (id : Kad128) :
    parseHelloResAck (buildHelloResAck id).2 = .ok id := by
  have hlen : (id.toWire.bytes ++ writeU8 0).length = 17 := by
    rw [List.length_append, id.toWire.len]
    rfl
  rw [parseHelloResAck, buildHelloResAck, if_neg (by rw [hlen]; decide)]
  show Prod.fst <$> readId (id.toWire.bytes ++ writeU8 0) = .ok id
  rw [reads_id]
  rfl

/-- What a HELLO of ours says of its sender. The port 0 is as good as none. -/
theorem foldl_noteDetail (sourceUdpPort : Option UInt16) (miscOptions : Option UInt8) :
    (detailTags sourceUdpPort miscOptions).foldl noteDetail (none, none) =
      (sourceUdpPort.filter fun p => p ≠ 0, miscOptions) := by
  have hport (p : UInt16) (known : Option UInt16 × Option UInt8) :
      noteDetail known ⟨TAG_SOURCEUPORT, .int p.toUInt64⟩ =
        if p = 0 then known else (some p, known.2) := by
    have hle : p.toUInt64 ≤ 0xFFFF := by
      rw [UInt64.le_iff_toNat_le, UInt16.toNat_toUInt64]
      exact Nat.le_of_lt_succ p.toNat_lt
    have hpos : 0 < p.toUInt64 ↔ p ≠ 0 := by
      rw [UInt64.lt_iff_toNat_lt, UInt16.toNat_toUInt64, Ne, ← UInt16.toNat_inj]
      exact Nat.pos_iff_ne_zero
    by_cases hp : p = 0
    · subst hp
      rfl
    · have hkept : (decide (0 < p.toUInt64) && decide (p.toUInt64 ≤ 0xFFFF)) = true := by
        rw [decide_eq_true (hpos.mpr hp), decide_eq_true hle]
        rfl
      rw [if_neg hp, noteDetail]
      dsimp only
      rw [if_pos rfl, if_pos hkept, UInt16.toUInt16_toUInt64]
  have hoptions (m : UInt8) (known : Option UInt16 × Option UInt8) :
      noteDetail known ⟨TAG_KADMISCOPTIONS, .int m.toUInt64⟩ = (known.1, some m) := by
    rw [noteDetail]
    dsimp only
    rw [if_neg (by decide), if_pos rfl, UInt8.toUInt8_toUInt64]
  cases sourceUdpPort with
  | none =>
    cases miscOptions with
    | none => rfl
    | some m => exact hoptions m (none, none)
  | some p =>
    have hfilter : (some p).filter (fun p => decide (p ≠ 0)) = if p = 0 then none else some p := by
      rw [Option.filter_some]
      by_cases hp : p = 0 <;> simp [hp]
    rw [hfilter]
    cases miscOptions with
    | none =>
      refine (hport p (none, none)).trans ?_
      split_ifs <;> rfl
    | some m =>
      refine (congrArg (noteDetail · _) (hport p (none, none))).trans ((hoptions m _).trans ?_)
      split_ifs <;> rfl

theorem length_detailTags_le (sourceUdpPort : Option UInt16) (miscOptions : Option UInt8) :
    (detailTags sourceUdpPort miscOptions).length ≤ 2 := by
  cases sourceUdpPort <;> cases miscOptions <;> simp [detailTags]

theorem writable_detailTags {sourceUdpPort : Option UInt16} {miscOptions : Option UInt8}
    {t : KadTag} (h : t ∈ detailTags sourceUdpPort miscOptions) : t.value.Writable := by
  rcases List.mem_append.mp h with hmem | hmem
  · obtain ⟨p, -, rfl⟩ := Option.map_eq_some_iff.mp (Option.mem_toList.mp hmem)
    trivial
  · obtain ⟨m, -, rfl⟩ := Option.map_eq_some_iff.mp (Option.mem_toList.mp hmem)
    trivial

theorem parseHello_build (id : Kad128) (tcpPort : UInt16) (sourceUdpPort : Option UInt16)
    (miscOptions : Option UInt8) :
    parseHello (buildMyDetails id tcpPort sourceUdpPort miscOptions) =
      .ok ⟨id, tcpPort, KADEMLIA_VERSION, sourceUdpPort.filter fun p => p ≠ 0, miscOptions⟩ := by
  have htags : Reads readKadTaglist (writeKadTaglist (detailTags sourceUdpPort miscOptions))
      (detailTags sourceUdpPort miscOptions) :=
    reads_kadTaglist_of_writable
      ((length_detailTags_le sourceUdpPort miscOptions).trans (by decide))
      fun t ht => writable_detailTags ht
  have hdetails := htags.bind_pure (f := fun tags =>
    Hello.mk id tcpPort KADEMLIA_VERSION (tags.foldl noteDetail (none, none)).1
      (tags.foldl noteDetail (none, none)).2)
  rw [foldl_noteDetail] at hdetails
  rw [parseHello, buildMyDetails]
  refine run'_of_reads ((reads_id id).bind ((reads_u16 tcpPort).bind ((reads_u8 _).bind ?_)))
  rw [if_neg (by decide)]
  exact hdetails

/-! ## KADEMLIA2_REQ -/

structure Kad2Req where
  /-- How many contacts are asked for, in five bits. -/
  reqType : UInt8
  target : Kad128
  receiver : Kad128
deriving DecidableEq

def buildKad2Req (reqType : UInt8) (target receiver : Kad128) : UInt8 × Bytes :=
  (OP_KAD2_REQ, writeU8 reqType ++ (target.toWire.bytes ++ receiver.toWire.bytes))

def parseKad2Req (payload : Bytes) : Except IoError Kad2Req :=
  let body : Reader Kad2Req := do
    let reqType := (← readU8) &&& 0x1F
    if reqType = 0 then throw (.badTag 0)
    else
      let target ← readId
      let receiver ← readId
      return ⟨reqType, target, receiver⟩
  body.run' payload

theorem parseKad2Req_build {reqType : UInt8} (h : reqType &&& 0x1F ≠ 0)
    (target receiver : Kad128) :
    parseKad2Req (buildKad2Req reqType target receiver).2 =
      .ok ⟨reqType &&& 0x1F, target, receiver⟩ := by
  rw [parseKad2Req, buildKad2Req]
  refine run'_of_reads ((reads_u8 reqType).bind ?_)
  dsimp only
  rw [if_neg h]
  exact (reads_id target).bind (reads_id receiver).bind_pure

/-- Nobody is asked for more than 31 contacts, and never for none. -/
theorem reqType_of_parseKad2Req {payload : Bytes} {req : Kad2Req}
    (h : parseKad2Req payload = .ok req) : 0 < req.reqType.toNat ∧ req.reqType.toNat ≤ 31 := by
  obtain ⟨rest, hrun⟩ := ok_map_fst h
  obtain ⟨b, s, -, hrun⟩ := ok_bind hrun
  dsimp only at hrun
  split_ifs at hrun with hzero
  · cases hrun
  · obtain ⟨target, s', -, hrun⟩ := ok_bind hrun
    obtain ⟨receiver, s'', -, hrun⟩ := ok_bind hrun
    cases hrun
    dsimp only
    constructor
    · rw [Nat.pos_iff_ne_zero, Ne, ← UInt8.toNat_zero, UInt8.toNat_inj]
      exact hzero
    · rw [UInt8.toNat_and]
      exact Nat.and_le_right

end PadMule.Kad
