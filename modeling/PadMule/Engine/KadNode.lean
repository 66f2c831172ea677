import PadMule.Engine.KadDemux
import PadMule.Engine.KadDrive
import PadMule.Engine.KadProven
import PadMule.Engine.KadServe

/-
  `mule-engine/src/kad_live.rs`: a live Kad node.

  The read loop is the one reader of the socket. A datagram is the answer to a request of ours, or
  an acknowledgement, or a request, which passes the flood gate and the blocklist before anything
  else is done with it. `Node.step` is the loop beside everything that works on the same state: the
  requests that go out, the answers their owners absorb, and what the engine does to the table.
  The table is the `live` part, and what a step does to it is a run of its own operations.
-/

namespace PadMule.Engine.KadNode

open PadMule.Proto PadMule.Kad KadGate KadDemux KadDrive KadServe KadAck

/-- MD5 and zlib. -/
structure Primitives where
  md5 : Bytes → Hash16
  deflate : Bytes → Bytes
  inflate : Bytes → Nat → Option Bytes

/-- What the answer to a request is read as. -/
inductive Purpose where
  | bootstrap
  | hello
  | find
  /-- The answer to a SEARCH, or to a PUBLISH. -/
  | value (publishing : Bool)
deriving DecidableEq

def OP_PUBLISH_RES : UInt8 := 0x4B

def Purpose.expect : Purpose → UInt8
  | .bootstrap => OP_BOOTSTRAP_RES
  | .hello => OP_HELLO_RES
  | .find => OP_KAD2_RES
  | .value false => OP_SEARCH_RES
  | .value true => OP_PUBLISH_RES

/-- A slot, and whom it waits for. -/
structure Waiting where
  slot : PendingSlot
  contact : WireContact
  purpose : Purpose

/-- An answer on its way to who asked. -/
structure Reply where
  waiting : Waiting
  answer : ReplyAnswer

structure Node where
  kadId : Kad128
  udpKey : UInt32
  tcpPort : UInt16
  udpPort : UInt16
  /-- 0 while it is the bound port. -/
  advertisedUdpPort : UInt32
  currentPublicIp : UInt32
  live : KadGate.World
  pending : List Waiting
  nextSeq : UInt64
  replies : List Reply
  flood : FloodMap
  helloResSent : OutTrack
  /-- Nanoseconds since the socket was bound. -/
  now : Nat

/-- Who a node is on the network. -/
structure Identity where
  kadId : Kad128
  udpKey : UInt32
  tcpPort : UInt16
  udpPort : UInt16

def Node.bind (who : Identity) : Node where
  kadId := who.kadId
  udpKey := who.udpKey
  tcpPort := who.tcpPort
  udpPort := who.udpPort
  advertisedUdpPort := 0
  currentPublicIp := 0
  live := .new who.kadId
  pending := []
  nextSeq := 0
  replies := []
  flood := []
  helloResSent := []
  now := 0

def contactAddr (ip : UInt32) (port : UInt16) : SocketAddr := .v4 ip port

def portOf : SocketAddr → UInt16
  | .v4 _ port | .v6 _ port => port

/-- The two random values of a datagram that goes out. -/
structure Rand where
  keyPart : UInt16
  marker : UInt8

/-- Seconds, for the aging of contacts. -/
def Node.aging (n : Node) : UInt64 := .ofNat (n.now / 1000000000)

/-- The length of the buffer the socket is read into. -/
def RECV_BUFFER : Nat := 8192

section

variable (p : Primitives)

/-- What is behind the obfuscation and the frame of a datagram. -/
def opened (kadId : Kad128) (udpKey : UInt32) (source : SocketAddr) (bytes : Bytes) :
    Option KadDemux.Datagram :=
  match kadDeobfuscate p.md5 (bytes.take RECV_BUFFER) kadId udpKey (ipU32 source) with
  | none => none
  | some dec =>
    match unpackKad p.inflate dec.payload with
    | .error _ => none
    | .ok (opcode, payload) => some ⟨source, opcode, payload, dec.receiverVk, dec.senderVk⟩

/-- The sender echoed the key we issue for its address. -/
def validReceiverKey (udpKey : UInt32) (d : KadDemux.Datagram) : Bool :=
  d.receiverVk = udpVerifyKey p.md5 udpKey (ipU32 d.source)

namespace Node

def advertisedUdp (n : Node) : UInt16 :=
  if n.advertisedUdpPort = 0 then n.udpPort else n.advertisedUdpPort.toUInt16

def me (n : Node) : ServeIdentity := ⟨n.kadId, n.tcpPort, n.advertisedUdp⟩

def closestServing (n : Node) (target : Kad128) (want : Nat) : List WireContact :=
  (n.live.table.closestToServing target want).map wire

def bootstrapPool (n : Node) (target : Kad128) (want : Nat) : List WireContact :=
  (n.live.table.closestTo target want).map wire

/-- A slot that waits for the datagram gets it. -/
def deliver (n : Node) (d : KadDemux.Datagram) : Option Node :=
  match position (n.pending.map Waiting.slot) d with
  | none => none
  | some i =>
    match n.pending[i]? with
    | none => none
    | some w => some { n with
        pending := n.pending.eraseIdx i
        replies := n.replies ++ [⟨w, d.payload, d.receiverVk = w.slot.senderVk, d.senderVk⟩] }

def acknowledge (n : Node) (d : KadDemux.Datagram) : Node :=
  let solicited := takeHelloResSent n.helloResSent (ipU32 d.source) n.now
  let n := { n with helloResSent := solicited.2 }
  match acceptHelloResAck d.payload solicited.1 (validReceiverKey p n.udpKey d) with
  | .markSenderVerified senderId =>
    { n with live := n.live.run [.verifyContact senderId (ipU32 d.source)] }
  | .drop => n

/-- A HELLO is proof of life, at the address it came from. -/
def recordHello (n : Node) (d : KadDemux.Datagram) : Node :=
  if d.opcode = OP_HELLO_REQ then
    match parseHello d.payload with
    | .error _ => n
    | .ok h =>
      let c : WireContact := ⟨h.id, ipU32 d.source, portOf d.source, h.tcpPort, h.version⟩
      { n with live := n.live.run [.gated c (validReceiverKey p n.udpKey d) true n.aging,
          .noteVerifyKey c.id c.ip d.senderVk n.currentPublicIp] }
  else n

/-- The answer to a request as it goes out. -/
def datagramOf (n : Node) (d : KadDemux.Datagram) (answer : ServeAnswer) (rand : Rand) : Bytes :=
  kadObfuscateResponse p.md5 (packKad p.deflate answer.opcode answer.payload) rand.keyPart
    d.senderVk (udpVerifyKey p.md5 n.udpKey (ipU32 d.source)) rand.marker

def answerTo (n : Node) (d : KadDemux.Datagram) : Option ServeAnswer :=
  answerRequest d.opcode d.payload (portOf d.source) n.me (validReceiverKey p n.udpKey d)
    n.closestServing n.bootstrapPool

/-- Behind the flood gate and the blocklist. -/
def reply (n : Node) (d : KadDemux.Datagram) (rand : Rand) : Node × Option Bytes :=
  let n := n.recordHello p d
  match n.answerTo p d with
  | none => (n, none)
  | some answer =>
    (if answer.requestAck then
        { n with helloResSent := noteHelloResSent n.helloResSent (ipU32 d.source) n.now }
      else n,
      some (n.datagramOf p d answer rand))

def serve (n : Node) (d : KadDemux.Datagram) (rand : Rand) : Node × Option Bytes :=
  let allowed := floodAllows n.flood d.opcode (ipU32 d.source) n.now
  let n := { n with flood := allowed.2 }
  if !allowed.1 then (n, none)
  else if n.live.ipFilter.any fun f => f.isBlocked (ipU32 d.source) then (n, none)
  else n.reply p d rand

/-- A turn of the read loop, behind the obfuscation and the frame. -/
def turn (n : Node) (d : KadDemux.Datagram) (rand : Rand) : Node × Option Bytes :=
  match n.deliver d with
  | some n => (n, none)
  | none => if d.opcode = OP_HELLO_RES_ACK then (n.acknowledge p d, none) else n.serve p d rand

/-- One turn of the read loop, and what it sends back to the source. -/
def receive (n : Node) (source : SocketAddr) (bytes : Bytes) (rand : Rand) :
    Node × Option Bytes :=
  match opened p n.kadId n.udpKey source bytes with
  | none => (n, none)
  | some d => n.turn p d rand

/-- `begin_request`: the slot is there before the datagram goes out. -/
def request (n : Node) (contact : WireContact) (purpose : Purpose) (frame : Bytes) (rand : Rand) :
    Node × Bytes :=
  let dest := contactAddr contact.ip contact.udpPort
  let senderVk := udpVerifyKey p.md5 n.udpKey (ipU32 dest)
  let echoVk := n.live.table.verifyKeyFor contact.id (ipU32 dest) n.currentPublicIp
  let slot : PendingSlot :=
    ⟨n.nextSeq, dest, ipU32 dest, senderVk, purpose.expect, 0, n.nextSeq.toNat⟩
  ({ n with pending := n.pending ++ [⟨slot, contact, purpose⟩], nextSeq := n.nextSeq + 1 },
    kadObfuscateRequest p.md5 frame contact.id rand.keyPart echoVk senderVk rand.marker)

/-- What an owner does to the table with its answer. -/
def absorbOps (n : Node) (r : Reply) : List LiveOp :=
  let c := r.waiting.contact
  let note (responder : WireContact) (provenAlive : Bool) : List LiveOp :=
    [.gated responder r.answer.verified provenAlive n.aging,
      .noteVerifyKey responder.id responder.ip r.answer.senderVk n.currentPublicIp]
  let offered (contacts : List WireContact) : List LiveOp :=
    contacts.map fun o => .gated o false false n.aging
  match r.waiting.purpose with
  | .bootstrap =>
    match parseBootstrapRes r.answer.payload with
    | .error _ => []
    | .ok res => note ⟨res.id, c.ip, c.udpPort, res.tcpPort, res.version⟩ true ++
        offered res.contacts
  | .hello =>
    match parseHello r.answer.payload with
    | .error _ => []
    | .ok hello => note ⟨c.id, c.ip, c.udpPort, hello.tcpPort, hello.version⟩ true
  | .find =>
    match Drive.usable r.answer.payload with
    | none => []
    | some contacts => note c false ++ offered contacts
  | .value false => if (parseSearchRes r.answer.payload).isOk then note c false else []
  | .value true => if (parsePublishRes r.answer.payload).isOk then note c false else []

/-- The acknowledgement a HELLO_RES asks for. -/
def ackFor (n : Node) (r : Reply) (rand : Rand) : Option (SocketAddr × Bytes) :=
  match r.waiting.purpose with
  | .hello =>
    match parseHello r.answer.payload with
    | .error _ => none
    | .ok hello =>
      if hello.miscOptions.any fun m => m &&& 0x04 ≠ 0 then
        let dest := contactAddr r.waiting.contact.ip r.waiting.contact.udpPort
        let m := buildHelloResAck n.kadId
        some (dest, kadObfuscateRequest p.md5 (packKad p.deflate m.1 m.2) r.waiting.contact.id
          rand.keyPart r.answer.senderVk (udpVerifyKey p.md5 n.udpKey (ipU32 dest)) rand.marker)
      else none
  | _ => none

/-- The owner of an answer takes it. -/
def absorb (n : Node) (i : Nat) (rand : Rand) : Node × Option (SocketAddr × Bytes) :=
  match n.replies[i]? with
  | none => (n, none)
  | some r =>
    ({ n with live := n.live.run (n.absorbOps r), replies := n.replies.eraseIdx i },
      n.ackFor p r rand)

end Node

/-- What happens to a node. -/
inductive NodeOp where
  | wait (duration : Nat)
  | datagram (source : SocketAddr) (bytes : Bytes) (rand : Rand)
  | request (contact : WireContact) (purpose : Purpose) (frame : Bytes) (rand : Rand)
  /-- A slot whose owner is through with it. -/
  | withdraw (seq : UInt64)
  | absorb (i : Nat) (rand : Rand)
  | setIpFilter (ipFilter : Option IpFilter)
  | setPublicIp (ip : UInt32)
  | setAdvertisedUdpPort (port : Option UInt16)
  | seed (contacts : List KadContact)
  | sweep (maxProbes : Nat)
  | remove (id : Kad128)

namespace Node

/-- A step, and the datagram it sends. -/
def step (n : Node) : NodeOp → Node × Option (SocketAddr × Bytes)
  | .wait duration => ({ n with now := n.now + duration }, none)
  | .datagram source bytes rand =>
    let r := n.receive p source bytes rand
    (r.1, r.2.map fun out => (source, out))
  | .request contact purpose frame rand =>
    let r := n.request p contact purpose frame rand
    (r.1, some (contactAddr contact.ip contact.udpPort, r.2))
  | .withdraw seq => ({ n with pending := n.pending.filter fun w => w.slot.seq ≠ seq }, none)
  | .absorb i rand => n.absorb p i rand
  | .setIpFilter ipFilter => ({ n with live := n.live.run [.setIpFilter ipFilter] }, none)
  | .setPublicIp ip => ({ n with currentPublicIp := ip }, none)
  | .setAdvertisedUdpPort port =>
    ({ n with advertisedUdpPort := ((port.filter fun q => q ≠ 0).map UInt16.toUInt32).getD 0 },
      none)
  | .seed contacts => ({ n with live := n.live.run [.seed contacts n.aging] }, none)
  | .sweep maxProbes => ({ n with live := n.live.run [.sweep n.aging maxProbes] }, none)
  | .remove id => ({ n with live := n.live.run [.remove id] }, none)

def run (n : Node) (ops : List NodeOp) : Node := ops.foldl (fun n op => (n.step p op).1) n

end Node

end

/-! ## What the other end opens -/

section

variable {p : Primitives} {kadId : Kad128} {udpKey : UInt32} {source : SocketAddr}
  {opcode : UInt8} {payload : Bytes}

/-- A frame of a short message in a datagram it can be got out of. -/
theorem opened_of_deobfuscated (hzlib : ZlibRoundTrips p.deflate p.inflate)
    (hpayload : payload.length ≤ 300) {bytes : Bytes} (hbytes : bytes.length ≤ RECV_BUFFER)
    {receiverVk senderVk : UInt32} {usedReceiverKey : Bool}
    (hdec : kadDeobfuscate p.md5 bytes kadId udpKey (ipU32 source) =
      some ⟨packKad p.deflate opcode payload, receiverVk, senderVk, usedReceiverKey⟩) :
    opened p kadId udpKey source bytes =
      some ⟨source, opcode, payload, receiverVk, senderVk⟩ := by
  unfold opened
  rw [List.take_of_length_le hbytes, hdec]
  dsimp only
  rw [unpackKad_packKad hzlib hpayload]

theorem length_assemble_packKad_le (hpayload : payload.length ≤ 300) (key : Hash16)
    (marker : UInt8) (keyPart : UInt16) (receiverVk senderVk : UInt32) :
    (assemble key marker keyPart receiverVk senderVk (packKad p.deflate opcode payload)).length ≤
      RECV_BUFFER := by
  have hframe := length_packKad_le p.deflate opcode payload
  rw [length_assemble, RECV_BUFFER]
  omega

/-- A request is opened by the node it is for. -/
theorem opened_request (hzlib : ZlibRoundTrips p.deflate p.inflate) (kadId : Kad128)
    (opcode : UInt8) (hpayload : payload.length ≤ 300) (udpKey : UInt32) (source : SocketAddr)
    (receiverVk senderVk : UInt32) (rand : Rand) :
    opened p kadId udpKey source (kadObfuscateRequest p.md5 (packKad p.deflate opcode payload) kadId
      rand.keyPart receiverVk senderVk rand.marker) =
        some ⟨source, opcode, payload, receiverVk, senderVk⟩ := by
  obtain ⟨hmarker, hkind⟩ := makeMarker_off rand.marker false
  have hdec : kadDeobfuscate p.md5 (assemble (nodeidKey p.md5 kadId.toWire rand.keyPart)
      (makeMarker rand.marker false) rand.keyPart receiverVk senderVk
      (packKad p.deflate opcode payload)) kadId udpKey (ipU32 source) =
        some ⟨packKad p.deflate opcode payload, receiverVk, senderVk, false⟩ := by
    rw [kadDeobfuscate_assemble _ hmarker, if_neg (by simpa using hkind), List.findSome?_cons]
    dsimp only
    rw [tryDecrypt_assemble _ false (packKad_ne_nil p.deflate opcode payload)]
  exact opened_of_deobfuscated hzlib hpayload (length_assemble_packKad_le hpayload _ _ _ _ _) hdec

/-- A response is opened by the node whose key for the address it is made with. -/
theorem opened_response (hzlib : ZlibRoundTrips p.deflate p.inflate)
    (hpayload : payload.length ≤ 300) (kadId : Kad128) (source : SocketAddr) (senderVk : UInt32)
    (rand : Rand) :
    opened p kadId udpKey source (kadObfuscateResponse p.md5 (packKad p.deflate opcode payload)
      rand.keyPart (udpVerifyKey p.md5 udpKey (ipU32 source)) senderVk rand.marker) =
        some ⟨source, opcode, payload, udpVerifyKey p.md5 udpKey (ipU32 source), senderVk⟩ := by
  obtain ⟨hmarker, hkind⟩ := makeMarker_off rand.marker true
  have hdec : kadDeobfuscate p.md5 (assemble
      (receiverKey p.md5 (udpVerifyKey p.md5 udpKey (ipU32 source)) rand.keyPart)
      (makeMarker rand.marker true) rand.keyPart (udpVerifyKey p.md5 udpKey (ipU32 source)) senderVk
      (packKad p.deflate opcode payload)) kadId udpKey (ipU32 source) =
        some ⟨packKad p.deflate opcode payload, udpVerifyKey p.md5 udpKey (ipU32 source), senderVk,
          true⟩ := by
    rw [kadDeobfuscate_assemble _ hmarker, if_pos (hkind.mpr rfl), List.findSome?_cons]
    dsimp only
    rw [tryDecrypt_assemble _ true (packKad_ne_nil p.deflate opcode payload)]
  exact opened_of_deobfuscated hzlib hpayload (length_assemble_packKad_le hpayload _ _ _ _ _) hdec

end

end PadMule.Engine.KadNode
