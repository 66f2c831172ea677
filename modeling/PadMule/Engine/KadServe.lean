import PadMule.Engine.KadAck
import PadMule.Kad.Flood
import PadMule.Kad.Frame
import PadMule.Kad.Requests
import PadMule.Kad.TableContacts

/-
  `mule-engine/src/kad_serve.rs` and `kad_live.rs`: what an inbound request is answered with.

  Routing requests are answered and nothing else is. A FIND is answered from the contacts that
  proved themselves to us, with as many as were asked for, and eleven at most; a BOOTSTRAP from all
  the verified ones, with twenty at most. `Answers` lists the answers there are, and no answer is
  longer than 521 bytes.
-/

namespace PadMule.Engine.KadServe

open PadMule.Proto PadMule.Kad Flood FileMap KadAck

structure ServeIdentity where
  kadId : Kad128
  tcpPort : UInt16
  /-- The port to dial, which need not be the bound one. -/
  advertisedUdpPort : UInt16

structure ServeAnswer where
  opcode : UInt8
  payload : Bytes
  /-- The peer was asked for an acknowledgement. -/
  requestAck : Bool
deriving DecidableEq

def ServeAnswer.plain (m : UInt8 × Bytes) : Option ServeAnswer := some ⟨m.1, m.2, false⟩

def KAD_FIND_NODE_ANSWER_CAP : Nat := 11

def KAD_BOOTSTRAP_ANSWER_CAP : Nat := 20

def MISC_REQUEST_ACK : UInt8 := 0x04

/-- A peer whose address is proven is not asked to prove it. -/
def answerHello (payload : Bytes) (me : ServeIdentity) (validReceiverKey : Bool) :
    Option ServeAnswer :=
  match parseHello payload with
  | .error _ => none
  | .ok _ =>
    let requestAck := !validReceiverKey
    let m := buildHelloRes me.kadId me.tcpPort (some me.advertisedUdpPort)
      (if requestAck then some MISC_REQUEST_ACK else none)
    some ⟨m.1, m.2, requestAck⟩

def answerRequest (op : UInt8) (payload : Bytes) (fromUdpPort : UInt16) (me : ServeIdentity)
    (validReceiverKey : Bool) (closestServing bootstrapPool : Kad128 → Nat → List WireContact) :
    Option ServeAnswer :=
  if op = OP_PING then ServeAnswer.plain (buildPong fromUdpPort)
  else if op = OP_HELLO_REQ then answerHello payload me validReceiverKey
  else if op = OP_KAD2_REQ then
    match parseKad2Req payload with
    | .error _ => none
    | .ok req =>
      if req.receiver ≠ me.kadId then none
      else
        let want := min req.reqType.toNat KAD_FIND_NODE_ANSWER_CAP
        ServeAnswer.plain (buildKad2Res req.target ((closestServing req.target want).take want))
  else if op = OP_BOOTSTRAP_REQ then
    let contacts := (bootstrapPool me.kadId KAD_BOOTSTRAP_ANSWER_CAP).take KAD_BOOTSTRAP_ANSWER_CAP
    ServeAnswer.plain (buildBootstrapRes me.kadId me.tcpPort KADEMLIA_VERSION contacts)
  else none

/-! ## The flood budget -/

/-- Requests of an ip in a minute, by opcode. -/
def floodBudget (op : UInt8) : Option UInt32 :=
  if op = OP_BOOTSTRAP_REQ then some 2
  else if op = OP_HELLO_REQ then some 3
  else if op = OP_KAD2_REQ then some 10
  else if op = OP_PING then some 2
  else none

def FLOOD_WINDOW : Nat := 60000000000

def FLOOD_BAN : Nat := 7200000000000

/-- One tracker for each opcode. -/
abbrev FloodMap := Dir UInt8 FloodTracker

def trackerOf (flood : FloodMap) (op : UInt8) (budget : UInt32) : FloodTracker :=
  (get flood op).getD (.new FLOOD_WINDOW budget (budget * 5) FLOOD_BAN)

def floodAllows (flood : FloodMap) (op : UInt8) (fromIp : UInt32) (now : Nat) : Bool × FloodMap :=
  match floodBudget op with
  | none => (true, flood)
  | some budget =>
    let r := (trackerOf flood op budget).record fromIp now
    (r.1 = .allow, write flood op r.2)

/-! ## The answers there are -/

/-- The answers to a request, and what they are made of. -/
inductive Answers (op : UInt8) (payload : Bytes) (fromUdpPort : UInt16) (me : ServeIdentity)
    (validReceiverKey : Bool) (closestServing bootstrapPool : Kad128 → Nat → List WireContact) :
    ServeAnswer → Prop where
  | pong (hop : op = OP_PING) :
      Answers op payload fromUdpPort me validReceiverKey closestServing bootstrapPool
        ⟨OP_PONG, (buildPong fromUdpPort).2, false⟩
  | hello {hello : Hello} (hop : op = OP_HELLO_REQ) (hparse : parseHello payload = .ok hello) :
      Answers op payload fromUdpPort me validReceiverKey closestServing bootstrapPool
        ⟨OP_HELLO_RES, buildMyDetails me.kadId me.tcpPort (some me.advertisedUdpPort)
          (if validReceiverKey then none else some MISC_REQUEST_ACK), !validReceiverKey⟩
  | find {req : Kad2Req} {contacts : List WireContact} (hop : op = OP_KAD2_REQ)
      (hparse : parseKad2Req payload = .ok req) (hreceiver : req.receiver = me.kadId)
      (hcontacts : contacts =
        (closestServing req.target (min req.reqType.toNat KAD_FIND_NODE_ANSWER_CAP)).take
          (min req.reqType.toNat KAD_FIND_NODE_ANSWER_CAP)) :
      Answers op payload fromUdpPort me validReceiverKey closestServing bootstrapPool
        ⟨OP_KAD2_RES, (buildKad2Res req.target contacts).2, false⟩
  | bootstrap {contacts : List WireContact} (hop : op = OP_BOOTSTRAP_REQ)
      (hcontacts : contacts =
        (bootstrapPool me.kadId KAD_BOOTSTRAP_ANSWER_CAP).take KAD_BOOTSTRAP_ANSWER_CAP) :
      Answers op payload fromUdpPort me validReceiverKey closestServing bootstrapPool
        ⟨OP_BOOTSTRAP_RES, (buildBootstrapRes me.kadId me.tcpPort KADEMLIA_VERSION contacts).2,
          false⟩

variable {op : UInt8} {payload : Bytes} {fromUdpPort : UInt16} {me : ServeIdentity}
  {validReceiverKey : Bool} {closestServing bootstrapPool : Kad128 → Nat → List WireContact}
  {answer : ServeAnswer}

theorem answers_answerRequest
    (h : answerRequest op payload fromUdpPort me validReceiverKey closestServing bootstrapPool =
      some answer) :
    Answers op payload fromUdpPort me validReceiverKey closestServing bootstrapPool answer := by
  unfold answerRequest at h
  split_ifs at h with hping hhello hfind hboot
  · cases h
    exact .pong hping
  · unfold answerHello at h
    cases hparse : parseHello payload with
    | error e =>
      rw [hparse] at h
      cases h
    | ok hello =>
      rw [hparse] at h
      cases h
      cases validReceiverKey with
      | false => exact .hello hhello hparse
      | true => exact .hello hhello hparse
  · cases hparse : parseKad2Req payload with
    | error e =>
      rw [hparse] at h
      cases h
    | ok req =>
      rw [hparse] at h
      dsimp only at h
      split_ifs at h with hreceiver
      cases h
      exact .find hfind hparse (not_not.mp hreceiver) rfl
  · cases h
    exact .bootstrap hboot rfl

/-- Every answer is to an opcode with a budget. -/
theorem Answers.budgeted (h : Answers op payload fromUdpPort me validReceiverKey closestServing
    bootstrapPool answer) : ∃ budget, floodBudget op = some budget := by
  cases h with
  | pong hop => exact ⟨2, hop ▸ rfl⟩
  | hello hop => exact ⟨3, hop ▸ rfl⟩
  | find hop => exact ⟨10, hop ▸ rfl⟩
  | bootstrap hop => exact ⟨2, hop ▸ rfl⟩

theorem length_flatMap_writeWireContact (contacts : List WireContact) :
    (contacts.flatMap writeWireContact).length = 25 * contacts.length := by
  induction contacts with
  | nil => rfl
  | cons c contacts ih =>
    rw [List.flatMap_cons, List.length_append, ih, length_writeWireContact, List.length_cons]
    omega

theorem length_buildKad2Res {target : Kad128} {contacts : List WireContact}
    (h : contacts.length ≤ 255) :
    (buildKad2Res target contacts).2.length = 17 + 25 * contacts.length := by
  rw [buildKad2Res, List.take_of_length_le h]
  dsimp only
  rw [List.length_append, List.length_append, target.toWire.len, length_flatMap_writeWireContact]
  simp [writeU8]
  omega

theorem length_buildBootstrapRes {id : Kad128} {tcpPort : UInt16} {version : UInt8}
    {contacts : List WireContact} (h : contacts.length ≤ 65535) :
    (buildBootstrapRes id tcpPort version contacts).2.length = 21 + 25 * contacts.length := by
  rw [buildBootstrapRes, List.take_of_length_le h]
  dsimp only
  rw [List.length_append, List.length_append, List.length_append, List.length_append,
    id.toWire.len, length_flatMap_writeWireContact]
  simp [writeU8, writeU16]
  omega

theorem length_writeKadTag_int_le (name : UInt8) (v : UInt64) :
    (writeKadTag ⟨name, .int v⟩).length ≤ 12 := by
  unfold writeKadTag
  dsimp only
  split_ifs <;> simp [writeName, writeU8, writeU16,
    writeU32, writeU64]

theorem length_buildMyDetails_le (id : Kad128) (tcpPort : UInt16) (sourceUdpPort : Option UInt16)
    (miscOptions : Option UInt8) :
    (buildMyDetails id tcpPort sourceUdpPort miscOptions).length ≤ 44 := by
  have htags : ((detailTags sourceUdpPort miscOptions).flatMap writeKadTag).length ≤ 24 := by
    cases sourceUdpPort with
    | none =>
      cases miscOptions with
      | none => decide
      | some m =>
        have hm := length_writeKadTag_int_le TAG_KADMISCOPTIONS m.toUInt64
        simp [detailTags]
        omega
    | some p =>
      have hp := length_writeKadTag_int_le TAG_SOURCEUPORT p.toUInt64
      cases miscOptions with
      | none =>
        simp [detailTags]
        omega
      | some m =>
        have hm := length_writeKadTag_int_le TAG_KADMISCOPTIONS m.toUInt64
        simp [detailTags]
        omega
  rw [buildMyDetails, writeKadTaglist, List.length_append, List.length_append, List.length_append,
    List.length_append, id.toWire.len]
  simp only [writeU8, writeU16, LittleEndian.length_toLE]
  omega

/-- No answer is longer than a BOOTSTRAP_RES with all its contacts. -/
theorem Answers.length_le (h : Answers op payload fromUdpPort me validReceiverKey closestServing
    bootstrapPool answer) : answer.payload.length ≤ 521 := by
  cases h with
  | pong hop =>
    show (writeU16 fromUdpPort).length ≤ 521
    simp [writeU16]
  | hello hop hparse => exact (length_buildMyDetails_le _ _ _ _).trans (by decide)
  | @find req contacts hop hparse hreceiver hcontacts =>
    have hlen : contacts.length ≤ 11 := by
      rw [hcontacts, List.length_take, KAD_FIND_NODE_ANSWER_CAP]
      omega
    dsimp only
    rw [length_buildKad2Res (by omega)]
    omega
  | @bootstrap contacts hop hcontacts =>
    have hlen : contacts.length ≤ 20 := by
      rw [hcontacts, List.length_take, KAD_BOOTSTRAP_ANSWER_CAP]
      omega
    dsimp only
    rw [length_buildBootstrapRes (by omega)]
    omega

end PadMule.Engine.KadServe
