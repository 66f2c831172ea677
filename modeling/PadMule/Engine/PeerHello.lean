import PadMule.Engine.PeerSources
import PadMule.Engine.WireIdentity
import PadMule.Kad.Requests
import PadMule.Lib.LossyUtf8
import PadMule.Proto.Framing

/-
  `mule-engine/src/peer.rs` and `crypt_policy.rs`: the HELLO of a client, and what is read from one.

  A HELLO is the userhash, id and port, a counted list of tags and the server. Nothing in it is
  lost on the way but what a nick has over 65535 bytes (`parseHello_build`), and whoever reads it
  gets the marker exactly if it was not hidden, and every capability field as the two option words
  have it (`hello_declares`).
-/

namespace PadMule.Engine.Peer

open PadMule.Proto PadMule.Kad LittleEndian Readers LossyUtf8

def OP_HELLO : UInt8 := 0x01
def OP_HELLOANSWER : UInt8 := 0x4C

def CT_NAME : UInt8 := 0x01
def CT_VERSION : UInt8 := 0x11
def CT_EMULECOMPAT_OPTIONS : UInt8 := 0xEF
def CT_EMULE_UDPPORTS : UInt8 := 0xF9
def CT_EMULE_MISCOPTIONS1 : UInt8 := 0xFA
def CT_EMULE_VERSION : UInt8 := 0xFB
def CT_EMULE_MISCOPTIONS2 : UInt8 := 0xFE

def EDONKEYVERSION : UInt32 := 0x3C

def SO_AMULE : UInt32 := 3

def makeFullEd2kVersion (a b c : UInt32) : UInt32 := a <<< 17 ||| b <<< 10 ||| c <<< 7

def EMULE_VERSION_TAG : UInt32 := SO_AMULE <<< 24 ||| makeFullEd2kVersion 3 0 1

def PADMULE_HELLO_TAG : Bytes := utf8Bytes "padMule".toList

def PADMULE_CHANNEL_VERSION : UInt8 := 1

def HELLO_KAD_VERSION : UInt32 := KADEMLIA_VERSION.toUInt32

def baselineMiscOptions1 (secIdent : UInt32) : UInt32 :=
  let aich : UInt32 := 1
  let unicode : UInt32 := 1
  let udpVer : UInt32 := 4
  let dataComp : UInt32 := 1
  let sourceExchange : UInt32 := 3
  let extRequests : UInt32 := 2
  let acceptComment : UInt32 := 1
  let peercache : UInt32 := 0
  let noViewShared : UInt32 := 0
  let multipacket : UInt32 := 1
  let preview : UInt32 := 0
  aich <<< 29 ||| unicode <<< 28 ||| udpVer <<< 24 ||| dataComp <<< 20 ||| secIdent <<< 16 |||
    sourceExchange <<< 12 ||| extRequests <<< 8 ||| acceptComment <<< 4 ||| peercache <<< 3 |||
    noViewShared <<< 2 ||| multipacket <<< 1 ||| preview

def baselineMiscOptions2 (cryptSupported cryptRequested cryptRequired kadVersion : UInt32) :
    UInt32 :=
  let directUdpCallback : UInt32 := 0
  let captcha : UInt32 := 0
  let sourceEx2 : UInt32 := 1
  let extMultipacket : UInt32 := 1
  let largeFiles : UInt32 := 1
  directUdpCallback <<< 12 ||| captcha <<< 11 ||| sourceEx2 <<< 10 ||| cryptRequired <<< 9 |||
    cryptRequested <<< 8 ||| cryptSupported <<< 7 ||| extMultipacket <<< 5 ||| largeFiles <<< 4 |||
    kadVersion

def COMPAT_OPTIONS_BASELINE : UInt32 := 1

structure HelloInfo where
  userHash : Hash16
  clientId : UInt32
  tcpPort : UInt16
  nick : List Char
  /-- The low half of CT_EMULE_UDPPORTS. -/
  udpPort : UInt16
  /-- The high half of CT_EMULE_UDPPORTS. -/
  kadUdpPort : UInt16
  miscOptions1 : UInt32
  miscOptions2 : UInt32
  compatOptions : UInt32
  serverIp : UInt32
  serverPort : UInt16
  incognito : Bool
deriving DecidableEq

namespace HelloInfo

def baseline (userHash : Hash16) (clientId : UInt32) (tcpPort kadUdpPort : UInt16)
    (nick : List Char) : HelloInfo where
  userHash := userHash
  clientId := clientId
  tcpPort := tcpPort
  nick := nick
  udpPort := 0
  kadUdpPort := kadUdpPort
  miscOptions1 := baselineMiscOptions1 0
  miscOptions2 := baselineMiscOptions2 0 0 0 HELLO_KAD_VERSION
  compatOptions := COMPAT_OPTIONS_BASELINE
  serverIp := 0
  serverPort := 0
  incognito := false

/-- `HelloInfo::incognito`. -/
def setIncognito (h : HelloInfo) (on : Bool) : HelloInfo := { h with incognito := on }

def withSecident (h : HelloInfo) : HelloInfo := { h with miscOptions1 := baselineMiscOptions1 1 }

def withCryptSupported (h : HelloInfo) : HelloInfo :=
  { h with miscOptions2 := baselineMiscOptions2 1 0 0 HELLO_KAD_VERSION }

/-- The port words of both networks in one. -/
def udpPorts (h : HelloInfo) : UInt32 := h.kadUdpPort.toUInt32 <<< 16 ||| h.udpPort.toUInt32

end HelloInfo

/-- Of the enhancement channel, with its capabilities. -/
def padmuleMarkerTag (caps : UInt32) : Tag :=
  ⟨.str PADMULE_HELLO_TAG, .u32 (caps <<< 8 ||| PADMULE_CHANNEL_VERSION.toUInt32)⟩

/-- The tags that `write_hello_body` writes. -/
def helloTags (h : HelloInfo) : List Tag :=
  [.ofId CT_NAME (.str (utf8Bytes h.nick)),
    .ofId CT_VERSION (.u32 EDONKEYVERSION),
    .ofId CT_EMULE_UDPPORTS (.u32 h.udpPorts),
    .ofId CT_EMULE_VERSION (.u32 EMULE_VERSION_TAG),
    .ofId CT_EMULE_MISCOPTIONS1 (.u32 h.miscOptions1),
    .ofId CT_EMULE_MISCOPTIONS2 (.u32 h.miscOptions2),
    .ofId CT_EMULECOMPAT_OPTIONS (.u32 h.compatOptions)] ++
    if h.incognito then [] else [padmuleMarkerTag 0]

def writeHelloBody (h : HelloInfo) : Bytes :=
  h.userHash.bytes ++ (writeU32 h.clientId ++ (writeU16 h.tcpPort ++
    (writeU32 (if h.incognito then 7 else 8) ++ ((helloTags h).flatMap writeTag ++
      (writeU32 h.serverIp ++ writeU16 h.serverPort)))))

/-- The opener's, behind the length of the userhash. -/
def buildHello (h : HelloInfo) : Packet := ⟨PROT_EDONKEY, OP_HELLO, writeU8 16 ++ writeHelloBody h⟩

def buildHelloAnswer (h : HelloInfo) : Packet := ⟨PROT_EDONKEY, OP_HELLOANSWER, writeHelloBody h⟩

/-! ## Reading a HELLO -/

structure PadMuleInfo where
  channelVersion : UInt8
  capabilities : UInt32
deriving DecidableEq

structure Capabilities where
  aich : UInt8
  udpVer : UInt8
  dataComp : UInt8
  secIdent : UInt8
  sourceExchange : UInt8
  extRequests : UInt8
  acceptComment : UInt8
  largeFiles : Bool
  extMultipacket : Bool
  supportsCrypt : Bool
  requestsCrypt : Bool
  requiresCrypt : Bool
  sourceEx2 : Bool
  kadVersion : UInt8
deriving DecidableEq

/-- What `capabilities` makes of the two option words. -/
def Capabilities.ofWords (m1 m2 : UInt32) : Capabilities where
  aich := (m1 >>> 29 &&& 0x7).toUInt8
  udpVer := (m1 >>> 24 &&& 0xF).toUInt8
  dataComp := (m1 >>> 20 &&& 0xF).toUInt8
  secIdent := (m1 >>> 16 &&& 0xF).toUInt8
  sourceExchange := (m1 >>> 12 &&& 0xF).toUInt8
  extRequests := (m1 >>> 8 &&& 0xF).toUInt8
  acceptComment := (m1 >>> 4 &&& 0xF).toUInt8
  largeFiles := m2 >>> 4 &&& 1 = 1
  extMultipacket := m2 >>> 5 &&& 1 = 1
  supportsCrypt := m2 >>> 7 &&& 1 = 1
  requestsCrypt := m2 >>> 8 &&& 1 = 1
  requiresCrypt := m2 >>> 9 &&& 1 = 1
  sourceEx2 := m2 >>> 10 &&& 1 = 1
  kadVersion := (m2 &&& 0xF).toUInt8

structure ParsedHello where
  userHash : Hash16
  clientId : UInt32
  tcpPort : UInt16
  tags : List Tag
  serverIp : UInt32
  serverPort : UInt16
deriving DecidableEq

/-- The value of a tag under this id, where it is an integer of at most 32 bits. -/
def Tag.intUnder (id : UInt8) (t : Tag) : Option UInt32 :=
  match t.name, t.value with
  | .id i, .u8 v => if i = id then some v.toUInt32 else none
  | .id i, .u16 v => if i = id then some v.toUInt32 else none
  | .id i, .u32 v => if i = id then some v else none
  | _, _ => none

/-- The value of a marker tag. -/
def Tag.marker (t : Tag) : Option UInt32 :=
  match t.name, t.value with
  | .str n, .u32 v => if n = PADMULE_HELLO_TAG then some v else none
  | _, _ => none

namespace ParsedHello

def tagU32 (p : ParsedHello) (id : UInt8) : Option UInt32 := p.tags.findSome? (Tag.intUnder id)

def padmule (p : ParsedHello) : Option PadMuleInfo := do
  let v ← p.tags.findSome? Tag.marker
  let channelVersion := (v &&& 0xFF).toUInt8
  if channelVersion = 0 then none else some ⟨channelVersion, v >>> 8⟩

/-- The name of a compatible client's id. -/
def softwareName (id : UInt32) : String :=
  if id = 0 then "eMule"
  else if id = 1 then "cDonkey"
  else if id = 2 then "xMule"
  else if id = 3 then "aMule"
  else if id = 4 then "Shareaza"
  else if id = 10 then "MLDonkey"
  else if id = 20 then "lphant"
  else "eMule-compatible"

/-- Its name and version, as CT_EMULE_VERSION packs them. -/
def softwareVersion (v : UInt32) : String :=
  let ver := v &&& 0x00FFFFFF
  let major := ver >>> 17 &&& 0x7F
  let minor := ver >>> 10 &&& 0x7F
  let patch := ver >>> 7 &&& 0x07
  softwareName (v >>> 24) ++ " " ++ toString major.toNat ++ "." ++ toString minor.toNat ++ "." ++
    toString patch.toNat

def clientSoftware (p : ParsedHello) : String :=
  if p.padmule.isSome then "padMule"
  else (p.tagU32 CT_EMULE_VERSION).elim "eDonkey" softwareVersion

def capabilities (p : ParsedHello) : Option Capabilities := do
  let m1 ← p.tagU32 CT_EMULE_MISCOPTIONS1
  let m2 := (p.tagU32 CT_EMULE_MISCOPTIONS2).getD 0
  return .ofWords m1 m2

end ParsedHello

def readHelloBody : Reader ParsedHello := do
  let userHash ← readHash16
  let clientId ← readU32
  let tcpPort ← readU16
  let tagcount ← readU32
  let tags ← readMany readTag tagcount.toNat
  let serverIp ← readU32
  let serverPort ← readU16
  return ⟨userHash, clientId, tcpPort, tags, serverIp, serverPort⟩

/-- `parse_hello`: a HELLO has the length of the userhash in front, which is not looked at. -/
def readHello (isHello : Bool) : Reader ParsedHello :=
  if isHello then do
    let _ ← readU8
    readHelloBody
  else readHelloBody

def parseHello (payload : Bytes) (isHello : Bool) : Except IoError ParsedHello :=
  (readHello isHello payload).map Prod.fst

/-! ## When to obfuscate -/

structure CryptPrefs where
  supported : Bool
  requested : Bool
  required : Bool
deriving DecidableEq

/-- `CryptPrefs::default`. -/
def CryptPrefs.ofDefault : CryptPrefs := ⟨true, true, false⟩

structure PeerCrypt where
  supports : Bool
  requests : Bool
  requires : Bool
deriving DecidableEq

def PeerCrypt.fromConnectOptions (byte : Option UInt8) : PeerCrypt :=
  let b := byte.getD 0
  ⟨b &&& 0x01 ≠ 0, b &&& 0x02 ≠ 0, b &&& 0x04 ≠ 0⟩

def PeerCrypt.ofCapabilities (c : Capabilities) : PeerCrypt :=
  ⟨c.supportsCrypt, c.requestsCrypt, c.requiresCrypt⟩

def shouldReject (peer : PeerCrypt) (ours : CryptPrefs) : Bool :=
  peer.requires && !ours.supported || ours.required && !peer.supports

def shouldObfuscateOutbound (peer : PeerCrypt) (ours : CryptPrefs) (havePeerHash : Bool) : Bool :=
  havePeerHash && peer.supports && ours.supported && (peer.requests || ours.requested)

/-- `PeerSource::should_obfuscate` -/
def shouldObfuscate (src : PeerSource) (ours : CryptPrefs) : Bool :=
  shouldObfuscateOutbound (.fromConnectOptions src.crypt) ours src.userHash.isSome

/-- The userhash that `fetch_one` dials with, `none` for plaintext. -/
def dialHash (src : PeerSource) : Option Hash16 :=
  if shouldObfuscate src .ofDefault then src.userHash else none

/-- The connect options of a peer that connected, which name it to others. -/
def connectOptions (c : Capabilities) : UInt8 :=
  c.supportsCrypt.toUInt8 ||| c.requestsCrypt.toUInt8 <<< 1 ||| c.requiresCrypt.toUInt8 <<< 2

/-! ## The HELLOs of the engine -/

/-- `WireIdentity::hello` -/
def helloOf (me : Advertised) (wire : WireIdentity) : HelloInfo :=
  (HelloInfo.baseline me.userHash 0 me.tcpPort me.kadUdpPort wire.effectiveNick).setIncognito
    wire.incognito

/-- Of the accept loop. -/
def listenerHello (me : Advertised) (wire : WireIdentity) : HelloInfo :=
  (helloOf me wire).withCryptSupported.withSecident

/-- Of a fetch. -/
def fetchHello (me : Advertised) (wire : WireIdentity) : HelloInfo := (helloOf me wire).withSecident

/-! ## What a HELLO says -/

/-- What the other end reads: the nick is cut where its prefix ends. -/
def HelloInfo.parsed (h : HelloInfo) : ParsedHello :=
  ⟨h.userHash, h.clientId, h.tcpPort, (helloTags h).map Tag.readBack, h.serverIp, h.serverPort⟩

theorem length_helloTags (h : HelloInfo) :
    (helloTags h).length = (if h.incognito then 7 else 8 : UInt32).toNat := by
  unfold helloTags
  cases h.incognito <;> rfl

theorem reads_helloBody (h : HelloInfo) : Reads readHelloBody (writeHelloBody h) h.parsed := by
  refine (reads_hash16 h.userHash).bind ?_
  refine (reads_u32 h.clientId).bind ?_
  refine (reads_u16 h.tcpPort).bind ?_
  refine (reads_u32 _).bind ?_
  rw [← length_helloTags]
  refine (Reads.many_map fun t _ => reads_tag_any t).bind ?_
  exact (reads_u32 h.serverIp).bind (reads_u16 h.serverPort).bind_pure

theorem length_writeHelloBody_le (h : HelloInfo) : (writeHelloBody h).length ≤ 70000 := by
  have htags : ((helloTags h).flatMap writeTag).length ≤ 69000 := by
    unfold helloTags
    have hnick : ∀ b : Bytes, (writeTag (.ofId CT_NAME (.str b))).length ≤ 66000 := by
      intro b
      simp only [writeTag, writeTagName, writeValue, writeStringU16, Tag.ofId, List.length_append,
        List.length_take, writeU8, writeU16, length_toLE]
      omega
    have hword : ∀ (id : UInt8) (x : UInt32), (writeTag (.ofId id (.u32 x))).length ≤ 100 :=
      fun id x => Nat.le_of_ble_eq_true rfl
    have hmarker : (writeTag (padmuleMarkerTag 0)).length ≤ 100 := by decide
    cases h.incognito <;>
      simp only [List.cons_append, List.nil_append, List.flatMap_cons, List.flatMap_nil,
        List.length_append, List.length_nil, Bool.false_eq_true, if_true, if_false] <;>
      linarith [hnick (utf8Bytes h.nick), hword CT_VERSION EDONKEYVERSION,
        hword CT_EMULE_UDPPORTS h.udpPorts, hword CT_EMULE_VERSION EMULE_VERSION_TAG,
        hword CT_EMULE_MISCOPTIONS1 h.miscOptions1, hword CT_EMULE_MISCOPTIONS2 h.miscOptions2,
        hword CT_EMULECOMPAT_OPTIONS h.compatOptions]
  have hhash : h.userHash.bytes.length = 16 := h.userHash.len
  simp only [writeHelloBody, List.length_append, writeU32, writeU16, length_toLE, hhash]
  omega

/-- A HELLO is within the limits of a frame, whatever its nick. -/
theorem framed_hello (h : HelloInfo) : (buildHello h).Framed ∧ (buildHelloAnswer h).Framed := by
  have hlen := length_writeHelloBody_le h
  refine ⟨⟨rfl, ?_⟩, ⟨rfl, ?_⟩⟩ <;>
    simp only [buildHello, buildHelloAnswer, MAX_PACKET_SIZE, List.length_append, writeU8,
      length_toLE] <;> omega

/-- Both kinds of HELLO tell the same. -/
theorem parseHello_build (h : HelloInfo) :
    parseHello (buildHello h).payload true = .ok h.parsed ∧
      parseHello (buildHelloAnswer h).payload false = .ok h.parsed := by
  have hhello : Reads (readHello true) (buildHello h).payload h.parsed :=
    (reads_u8 16).bind (reads_helloBody h)
  have hanswer : Reads (readHello false) (buildHelloAnswer h).payload h.parsed :=
    reads_helloBody h
  exact ⟨congrArg (Except.map Prod.fst) hhello.run_nil,
    congrArg (Except.map Prod.fst) hanswer.run_nil⟩

theorem tags_parsed (h : HelloInfo) :
    h.parsed.tags = [⟨.id CT_NAME, .str ((utf8Bytes h.nick).take 65535)⟩,
        .ofId CT_VERSION (.u32 EDONKEYVERSION),
        .ofId CT_EMULE_UDPPORTS (.u32 h.udpPorts),
        .ofId CT_EMULE_VERSION (.u32 EMULE_VERSION_TAG),
        .ofId CT_EMULE_MISCOPTIONS1 (.u32 h.miscOptions1),
        .ofId CT_EMULE_MISCOPTIONS2 (.u32 h.miscOptions2),
        .ofId CT_EMULECOMPAT_OPTIONS (.u32 h.compatOptions)] ++
      if h.incognito then [] else [padmuleMarkerTag 0] := by
  unfold HelloInfo.parsed helloTags
  cases h.incognito <;> rfl

theorem padmule_parsed (h : HelloInfo) :
    h.parsed.padmule = if h.incognito then none else some ⟨1, 0⟩ := by
  rw [ParsedHello.padmule, tags_parsed]
  cases h.incognito <;> rfl

theorem tagU32_parsed (h : HelloInfo) :
    h.parsed.tagU32 CT_VERSION = some EDONKEYVERSION ∧
      h.parsed.tagU32 CT_EMULE_UDPPORTS = some h.udpPorts ∧
      h.parsed.tagU32 CT_EMULE_VERSION = some EMULE_VERSION_TAG ∧
      h.parsed.tagU32 CT_EMULE_MISCOPTIONS1 = some h.miscOptions1 ∧
      h.parsed.tagU32 CT_EMULE_MISCOPTIONS2 = some h.miscOptions2 ∧
      h.parsed.tagU32 CT_EMULECOMPAT_OPTIONS = some h.compatOptions := by
  simp only [ParsedHello.tagU32, tags_parsed]
  exact ⟨rfl, rfl, rfl, rfl, rfl, rfl⟩

theorem capabilities_parsed (h : HelloInfo) :
    h.parsed.capabilities = some (.ofWords h.miscOptions1 h.miscOptions2) := by
  obtain ⟨-, -, -, h1, h2, -⟩ := tagU32_parsed h
  rw [ParsedHello.capabilities, h1, h2]
  rfl

theorem clientSoftware_parsed (h : HelloInfo) :
    h.parsed.clientSoftware = if h.incognito then "aMule 3.0.1" else "padMule" := by
  obtain ⟨-, -, hversion, -⟩ := tagU32_parsed h
  rw [ParsedHello.clientSoftware, padmule_parsed, hversion]
  cases h.incognito with
  | false => rfl
  | true => decide +kernel

/-- The two ports come apart again. -/
theorem udpPorts_split (h : HelloInfo) :
    (h.udpPorts >>> 16).toUInt16 = h.kadUdpPort ∧ h.udpPorts.toUInt16 = h.udpPort := by
  have hkad : h.kadUdpPort.toNat < 2 ^ 16 := h.kadUdpPort.toNat_lt
  have hudp : h.udpPort.toNat < 2 ^ 16 := h.udpPort.toNat_lt
  have hsum : h.udpPorts.toNat = h.kadUdpPort.toNat * 2 ^ 16 + h.udpPort.toNat := by
    have hshift : (h.kadUdpPort.toUInt32 <<< 16).toNat = h.kadUdpPort.toNat <<< 16 := by
      rw [UInt32.toNat_shiftLeft, UInt16.toNat_toUInt32]
      refine Nat.mod_eq_of_lt ?_
      rw [show (16 : UInt32).toNat % 32 = 16 from rfl, Nat.shiftLeft_eq]
      omega
    rw [HelloInfo.udpPorts, UInt32.toNat_or, hshift, UInt16.toNat_toUInt32,
      ← Nat.shiftLeft_add_eq_or_of_lt hudp, Nat.shiftLeft_eq]
  constructor <;> refine UInt16.toNat_inj.mp ?_
  · rw [UInt32.toNat_toUInt16, UInt32.toNat_shiftRight, hsum, Nat.shiftRight_eq_div_pow,
      show (16 : UInt32).toNat % 32 = 16 from rfl]
    omega
  · rw [UInt32.toNat_toUInt16, hsum]
    omega

/-- All of a HELLO but what a nick has over 65535 bytes. -/
structure SameOnWire (h h' : HelloInfo) : Prop where
  rest : { h with nick := [] } = { h' with nick := [] }
  nick : (utf8Bytes h.nick).take 65535 = (utf8Bytes h'.nick).take 65535

theorem sameOnWire_of_parsed {h h' : HelloInfo} (heq : h.parsed = h'.parsed) :
    SameOnWire h h' := by
  have htags := congrArg ParsedHello.tags heq
  have hmarker := congrArg ParsedHello.padmule heq
  have htag := fun id => congrArg (ParsedHello.tagU32 · id) heq
  obtain ⟨-, hports, -, h1, h2, hcompat⟩ := tagU32_parsed h
  obtain ⟨-, hports', -, h1', h2', hcompat'⟩ := tagU32_parsed h'
  have hudp : h.udpPorts = h'.udpPorts :=
    Option.some.inj (hports.symm.trans ((htag _).trans hports'))
  have hm1 : h.miscOptions1 = h'.miscOptions1 :=
    Option.some.inj (h1.symm.trans ((htag _).trans h1'))
  have hm2 : h.miscOptions2 = h'.miscOptions2 :=
    Option.some.inj (h2.symm.trans ((htag _).trans h2'))
  have hopts : h.compatOptions = h'.compatOptions :=
    Option.some.inj (hcompat.symm.trans ((htag _).trans hcompat'))
  have hhidden : h.incognito = h'.incognito := by
    rw [padmule_parsed, padmule_parsed] at hmarker
    cases hi : h.incognito <;> cases hi' : h'.incognito <;> rw [hi, hi'] at hmarker <;>
      first | rfl | cases hmarker
  have hnick : (utf8Bytes h.nick).take 65535 = (utf8Bytes h'.nick).take 65535 := by
    rw [tags_parsed, tags_parsed] at htags
    injection htags with hname
    injection hname with _ hvalue
    exact TagValue.str.inj hvalue
  obtain ⟨hkad, hlow⟩ := udpPorts_split h
  obtain ⟨hkad', hlow'⟩ := udpPorts_split h'
  refine ⟨?_, hnick⟩
  rw [HelloInfo.mk.injEq]
  refine ⟨congrArg ParsedHello.userHash heq, congrArg ParsedHello.clientId heq,
    congrArg ParsedHello.tcpPort heq, rfl, ?_, ?_, hm1, hm2, hopts,
    congrArg ParsedHello.serverIp heq, congrArg ParsedHello.serverPort heq, hhidden⟩
  · rw [← hlow, ← hlow', hudp]
  · rw [← hkad, ← hkad', hudp]

theorem writeStringU16_take (b : Bytes) : writeStringU16 (b.take 65535) = writeStringU16 b := by
  have hlen : min (b.take 65535).length 65535 = min b.length 65535 := by
    rw [List.length_take]
    omega
  simp only [writeStringU16, hlen, List.take_take]
  rw [Nat.min_eq_left (Nat.min_le_right _ _)]

theorem SameOnWire.body {h h' : HelloInfo} (hsame : SameOnWire h h') :
    writeHelloBody h = writeHelloBody h' := by
  obtain ⟨hrest, hnick⟩ := hsame
  have hname : writeTag (.ofId CT_NAME (.str (utf8Bytes h.nick))) =
      writeTag (.ofId CT_NAME (.str (utf8Bytes h'.nick))) := by
    have hstring := congrArg writeStringU16 hnick
    rw [writeStringU16_take, writeStringU16_take] at hstring
    exact congrArg (writeU8 TAGTYPE_STRING ++ writeTagName (.id CT_NAME) ++ ·) hstring
  obtain ⟨hhash, hid, hport, -, hudp, hkad, h1, h2, hcompat, hip, hserver, hhidden⟩ :=
    HelloInfo.mk.inj hrest
  simp only [writeHelloBody, helloTags, HelloInfo.udpPorts, List.flatMap_append,
    List.flatMap_cons, hname, hhash, hid, hport, hudp, hkad, h1, h2, hcompat, hip, hserver, hhidden]

/-- A HELLO declares what it was made of, to whoever reads it. It is read back whole from either
    kind of packet: the userhash, id, port and server, the capabilities as the option words have
    them, and as one of us exactly if the marker is not hidden. Two of them are the same packet
    exactly if they differ at most in what a nick has over 65535 bytes. -/
theorem hello_declares (h : HelloInfo) :
    (∃ p, parseHello (buildHello h).payload true = .ok p ∧
      parseHello (buildHelloAnswer h).payload false = .ok p ∧
      (p.userHash, p.clientId, p.tcpPort) = (h.userHash, h.clientId, h.tcpPort) ∧
      (p.serverIp, p.serverPort) = (h.serverIp, h.serverPort) ∧
      p.capabilities = some (.ofWords h.miscOptions1 h.miscOptions2) ∧
      p.padmule = (if h.incognito then none else some ⟨PADMULE_CHANNEL_VERSION, 0⟩) ∧
      p.clientSoftware = if h.incognito then "aMule 3.0.1" else "padMule") ∧
    ∀ h', (buildHello h = buildHello h' ↔ SameOnWire h h') ∧
      (buildHelloAnswer h = buildHelloAnswer h' ↔ SameOnWire h h') := by
  obtain ⟨hhello, hanswer⟩ := parseHello_build h
  refine ⟨⟨h.parsed, hhello, hanswer, rfl, rfl, capabilities_parsed h, padmule_parsed h,
    clientSoftware_parsed h⟩, fun h' => ⟨⟨fun heq => ?_, fun hsame => ?_⟩,
    ⟨fun heq => ?_, fun hsame => ?_⟩⟩⟩
  · rw [heq, (parseHello_build h').1] at hhello
    exact sameOnWire_of_parsed (Except.ok.inj hhello).symm
  · rw [buildHello, buildHello, hsame.body]
  · rw [heq, (parseHello_build h').2] at hanswer
    exact sameOnWire_of_parsed (Except.ok.inj hanswer).symm
  · rw [buildHelloAnswer, buildHelloAnswer, hsame.body]

/-! ## What the engine declares -/

/-- The HELLO less its flags is the one that `WireIdentity.hello` has. -/
def HelloInfo.reduced (h : HelloInfo) : Engine.HelloInfo where
  userHash := h.userHash
  clientId := h.clientId
  tcpPort := h.tcpPort
  nick := h.nick
  kadUdpPort := h.kadUdpPort
  incognito := h.incognito

theorem reduced_helloOf (me : Advertised) (wire : WireIdentity) :
    (helloOf me wire).reduced = wire.hello me ∧ (listenerHello me wire).reduced = wire.hello me ∧
      (fetchHello me wire).reduced = wire.hello me := ⟨rfl, rfl, rfl⟩

/-- Under any settings the two kinds differ in one capability: that we take obfuscated connections
    is only declared to who dials us. -/
theorem capabilities_engine (me : Advertised) (wire : WireIdentity) :
    (listenerHello me wire).parsed.capabilities =
        some ⟨1, 4, 1, 1, 3, 2, 1, true, true, true, false, false, true, 8⟩ ∧
      (fetchHello me wire).parsed.capabilities =
        some ⟨1, 4, 1, 1, 3, 2, 1, true, true, false, false, false, true, 8⟩ := by
  rw [capabilities_parsed, capabilities_parsed]
  have hlistener : Capabilities.ofWords (baselineMiscOptions1 1)
      (baselineMiscOptions2 1 0 0 HELLO_KAD_VERSION) =
        ⟨1, 4, 1, 1, 3, 2, 1, true, true, true, false, false, true, 8⟩ := by decide
  have hfetch : Capabilities.ofWords (baselineMiscOptions1 1)
      (baselineMiscOptions2 0 0 0 HELLO_KAD_VERSION) =
        ⟨1, 4, 1, 1, 3, 2, 1, true, true, false, false, false, true, 8⟩ := by decide
  exact ⟨congrArg some hlistener, congrArg some hfetch⟩

/-- Connect options say what the HELLO said they are made of. -/
theorem fromConnectOptions_connectOptions (c : Capabilities) :
    PeerCrypt.fromConnectOptions (some (connectOptions c)) = .ofCapabilities c := by
  rw [PeerCrypt.fromConnectOptions, PeerCrypt.ofCapabilities, connectOptions]
  cases c.supportsCrypt <;> cases c.requestsCrypt <;> cases c.requiresCrypt <;> decide

end PadMule.Engine.Peer
