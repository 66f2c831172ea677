import PadMule.Engine.Transport

/-
  `mule-engine/src/obf_handshake.rs` and `mule-proto/src/obf.rs`: the obfuscation handshake between
  two clients, and the packets behind it.

  Both ends derive one cipher for each direction from the responder's hash and the random key that
  is sent in the clear. The hello, its padding and the frames of the initiator are under one
  keystream, the reply and the frames of the responder under the other; whatever the padding and
  the cuts of the streams are, each side stands at the same place of both when the handshake is
  over (`accept_hello`, `initiate_reply`) and reads what the other wrote (`transport_round_trip`).
  Plaintext is told by the first byte, of which only three protocols are known.
-/

namespace PadMule.Engine

open PadMule.Proto LittleEndian Chunks

def MAGICVALUE_SYNC : UInt32 := 0x835E6FC4
def MAGICVALUE_REQUESTER : UInt8 := 34
def MAGICVALUE_SERVER : UInt8 := 203
def TCP_RC4_DISCARD : Nat := 1024
def ENM_OBFUSCATION : UInt8 := 0x00

/-- The plaintext eD2k protocol markers. -/
def PLAINTEXT_MARKERS : List UInt8 := [0xE3, 0xD4, 0xC5]

def isPlaintextMarker (b : UInt8) : Bool := b ∈ PLAINTEXT_MARKERS

def semiRandomMarker (randByte : UInt8) : UInt8 :=
  if isPlaintextMarker randByte then 0x01 else randByte

section

variable (md5 : Bytes → Bytes)

def tcpCipher (userHash : Hash16) (magic : UInt8) (randomKey : UInt32) : Rc4 :=
  .newDiscard (md5 (userHash.bytes ++ magic :: writeU32 randomKey)) TCP_RC4_DISCARD

def StreamCiphers.initiator (targetHash : Hash16) (randomKey : UInt32) : StreamCiphers :=
  ⟨tcpCipher md5 targetHash MAGICVALUE_REQUESTER randomKey,
    tcpCipher md5 targetHash MAGICVALUE_SERVER randomKey⟩

def StreamCiphers.responder (ownHash : Hash16) (randomKey : UInt32) : StreamCiphers :=
  ⟨tcpCipher md5 ownHash MAGICVALUE_SERVER randomKey,
    tcpCipher md5 ownHash MAGICVALUE_REQUESTER randomKey⟩

end

/-- Sync, methods supported and preferred, and the length of the padding, at most 254 of it. -/
def helloHead (padding : Bytes) : Bytes :=
  writeU32 MAGICVALUE_SYNC ++ [ENM_OBFUSCATION, ENM_OBFUSCATION, .ofNat padding.length]

/-- The hello, and the cipher behind it. -/
def buildInitiatorHandshake (send : Rc4) (marker : UInt8) (randomKey : UInt32) (padding : Bytes) :
    Bytes × Rc4 :=
  let padding := padding.take 254
  let (enc, send) := send.apply (helloHead padding ++ padding)
  (marker :: writeU32 randomKey ++ enc, send)

inductive FrameError where
  | protocol (e : IoError)
  | io
deriving DecidableEq

/-- `read_exact` -/
def exactly (chunks : List Bytes) (n : Nat) : Except FrameError (Bytes × List Bytes) :=
  match readExact chunks n with
  | none => .error .io
  | some read => .ok read

/-- Advance the keystream past the padding. -/
def skipPad (recv : Rc4) (padLen : Nat) (chunks : List Bytes) :
    Except FrameError (Rc4 × List Bytes) :=
  if 0 < padLen then do
    let (pad, chunks) ← exactly chunks padLen
    return ((recv.apply pad).2, chunks)
  else return (recv, chunks)

inductive ObfDetect where
  /-- The protocol byte that has been read. -/
  | plaintext (first : UInt8)
  | obfuscated (ciphers : StreamCiphers)
deriving DecidableEq

/-- The hello that `obf_initiate_with` sends, and the ciphers behind it. -/
def sendHello (ciphers : StreamCiphers) (randomKey : UInt32) (randByte : UInt8) (padding : Bytes) :
    Bytes × StreamCiphers :=
  let (hs, send) :=
    buildInitiatorHandshake ciphers.send (semiRandomMarker randByte) randomKey padding
  (hs, ⟨send, ciphers.recv⟩)

/-- The rest of `obf_initiate_with`, when the responder's reply comes. -/
def takeReply (ciphers : StreamCiphers) (chunks : List Bytes) :
    Except FrameError (StreamCiphers × List Bytes) := do
  let (head, chunks) ← exactly chunks 6
  let (head, recv) := ciphers.recv.apply head
  if UInt32.ofNat (ofLE (head.take 4)) ≠ MAGICVALUE_SYNC then
    .error (.protocol (.badHeader (head.headD 0)))
  else
    let (recv, chunks) ← skipPad recv (head.getD 5 0).toNat chunks
    return (⟨ciphers.send, recv⟩, chunks)

/-- Sync, method selected and no padding. -/
def replyPlain : Bytes := writeU32 MAGICVALUE_SYNC ++ [ENM_OBFUSCATION, 0]

/-- The rest of `obf_accept`, when the random key is known: the ciphers, the reply that is sent and
    what is left of the stream. -/
def answerHello (ciphers : StreamCiphers) (chunks : List Bytes) :
    Except FrameError (StreamCiphers × Bytes × List Bytes) := do
  let (head, chunks) ← exactly chunks 7
  let (head, recv) := ciphers.recv.apply head
  if UInt32.ofNat (ofLE (head.take 4)) ≠ MAGICVALUE_SYNC then
    .error (.protocol (.badHeader (head.headD 0)))
  else
    let (recv, chunks) ← skipPad recv (head.getD 6 0).toNat chunks
    let (reply, send) := ciphers.send.apply replyPlain
    return (⟨send, recv⟩, reply, chunks)

def obfAccept (md5 : Bytes → Bytes) (ownHash : Hash16) (chunks : List Bytes) :
    Except FrameError (ObfDetect × Bytes × List Bytes) := do
  let (first, chunks) ← exactly chunks 1
  if isPlaintextMarker (first.headD 0) then return (.plaintext (first.headD 0), [], chunks)
  else
    let (rk, chunks) ← exactly chunks 4
    let (ciphers, reply, chunks) ←
      answerHello (.responder md5 ownHash (.ofNat (ofLE rk))) chunks
    return (.obfuscated ciphers, reply, chunks)

/-! ## The handshake -/

theorem semiRandomMarker_not_plaintext (b : UInt8) :
    isPlaintextMarker (semiRandomMarker b) = false := by
  rw [semiRandomMarker]
  split_ifs with hplain
  · decide
  · exact Bool.eq_false_iff.mpr hplain

theorem exactly_of_cuts {chunks : List Bytes} {front rest : Bytes} {n : Nat}
    (h : Cuts chunks (front ++ rest)) (hn : front.length = n) :
    ∃ left, exactly chunks n = .ok (front, left) ∧ Cuts left rest := by
  obtain ⟨left, hread, hleft⟩ := h.readExact
  exact ⟨left, by rw [exactly, ← hn, hread], hleft⟩

theorem skipPad_of_cuts {recv : Rc4} {chunks : List Bytes} {pad rest : Bytes}
    (h : Cuts chunks ((recv.apply pad).1 ++ rest)) :
    ∃ left, skipPad recv pad.length chunks = .ok ((recv.apply pad).2, left) ∧ Cuts left rest := by
  rw [skipPad]
  split_ifs with hpos
  · obtain ⟨left, hread, hleft⟩ := exactly_of_cuts h (recv.length_apply pad)
    refine ⟨left, ?_, hleft⟩
    rw [hread]
    exact congrArg (fun c => Except.ok (c, left)) (recv.apply_apply_snd pad)
  · obtain rfl : pad = [] := List.eq_nil_of_length_eq_zero (by omega)
    exact ⟨chunks, rfl, h⟩

theorem skipPad_zero (recv : Rc4) (chunks : List Bytes) :
    skipPad recv 0 chunks = .ok (recv, chunks) := rfl

theorem sync_of_head (rest : Bytes) :
    UInt32.ofNat (ofLE ((writeU32 MAGICVALUE_SYNC ++ rest).take 4)) = MAGICVALUE_SYNC := by
  rw [List.take_left' (by decide)]
  decide

/-- What the hello is under the initiator's cipher `c`. -/
theorem sendHello_eq (c recv : Rc4) (randomKey : UInt32) (randByte : UInt8) (padding : Bytes) :
    sendHello ⟨c, recv⟩ randomKey randByte padding =
      ([semiRandomMarker randByte] ++ (writeU32 randomKey ++
          (c.apply (helloHead (padding.take 254) ++ padding.take 254)).1),
        ⟨(c.apply (helloHead (padding.take 254) ++ padding.take 254)).2, recv⟩) := by
  simp only [sendHello, buildInitiatorHandshake, List.cons_append, List.nil_append]

/-- The responder goes with its receiving cipher `c` over the hello and its padding. -/
theorem answerHello_of_cuts (c send : Rc4) {chunks : List Bytes} {pad rest : Bytes}
    (hpad : pad.length < 256) (h : Cuts chunks ((c.apply (helloHead pad ++ pad)).1 ++ rest)) :
    ∃ left, answerHello ⟨send, c⟩ chunks =
        .ok (⟨(send.apply replyPlain).2, (c.apply (helloHead pad ++ pad)).2⟩,
          (send.apply replyPlain).1, left) ∧ Cuts left rest := by
  have hpadlen : (UInt8.ofNat pad.length).toNat = pad.length := UInt8.toNat_ofNat_of_lt' hpad
  have hhead : (helloHead pad).getD 6 0 = .ofNat pad.length := rfl
  have hsync : UInt32.ofNat (ofLE ((helloHead pad).take 4)) = MAGICVALUE_SYNC := sync_of_head _
  have hseven : (c.apply (helloHead pad)).1.length = 7 := by
    rw [Rc4.length_apply]
    rfl
  rw [Rc4.apply_append, List.append_assoc] at h
  obtain ⟨middle, hread, hmiddle⟩ := exactly_of_cuts h hseven
  obtain ⟨left, hskip, hleft⟩ := skipPad_of_cuts hmiddle
  refine ⟨left, ?_, hleft⟩
  simp only [answerHello, hread, bind, Except.bind, Rc4.apply_apply, Rc4.apply_apply_snd, hsync,
    ne_eq, not_true_eq_false, if_false, hhead, hpadlen, hskip, Rc4.apply_append, pure, Except.pure]

/-- The initiator goes with its receiving cipher `c` over the reply. -/
theorem takeReply_of_cuts (c send : Rc4) {chunks : List Bytes} {rest : Bytes}
    (h : Cuts chunks ((c.apply replyPlain).1 ++ rest)) :
    ∃ left, takeReply ⟨send, c⟩ chunks = .ok (⟨send, (c.apply replyPlain).2⟩, left) ∧
      Cuts left rest := by
  have hpadlen : (replyPlain.getD 5 0).toNat = 0 := rfl
  have hsync : UInt32.ofNat (ofLE (replyPlain.take 4)) = MAGICVALUE_SYNC := sync_of_head _
  have hsix : (c.apply replyPlain).1.length = 6 := by
    rw [Rc4.length_apply]
    rfl
  obtain ⟨left, hread, hleft⟩ := exactly_of_cuts h hsix
  refine ⟨left, ?_, hleft⟩
  simp only [takeReply, hread, bind, Except.bind, Rc4.apply_apply, Rc4.apply_apply_snd, hsync,
    ne_eq, not_true_eq_false, if_false, hpadlen, skipPad_zero, pure, Except.pure]

/-- A stream that starts with a hello of this key is answered with the ciphers of the key. -/
theorem obfAccept_of_cuts (md5 : Bytes → Bytes) (ownHash : Hash16) (randomKey : UInt32)
    (randByte : UInt8) {chunks : List Bytes} {rest : Bytes}
    (h : Cuts chunks ([semiRandomMarker randByte] ++ (writeU32 randomKey ++ rest))) :
    ∃ left, Cuts left rest ∧ obfAccept md5 ownHash chunks =
      (answerHello (.responder md5 ownHash randomKey) left).map
        fun answer => (.obfuscated answer.1, answer.2) := by
  have hkey : UInt32.ofNat (ofLE (writeU32 randomKey)) = randomKey := by
    rw [writeU32, ofLE_toLE randomKey.toNat_lt, UInt32.ofNat_toNat]
  obtain ⟨middle, hfirst, hmiddle⟩ := exactly_of_cuts (n := 1) h rfl
  obtain ⟨left, hrk, hleft⟩ := exactly_of_cuts (n := 4) hmiddle (length_toLE 4 _)
  refine ⟨left, hleft, ?_⟩
  simp only [obfAccept, hfirst, hrk, bind, Except.bind, List.headD_cons,
    semiRandomMarker_not_plaintext, Bool.false_eq_true, if_false, hkey]
  cases answerHello (.responder md5 ownHash randomKey) left <;> rfl

/-- When the handshake is over the ciphers of the two directions are paired, and both streams stand
    behind it. -/
theorem handshake_pairs (md5 : Bytes → Bytes) (hash : Hash16) (randomKey : UInt32)
    (randByte : UInt8) (padding : Bytes) :
    let sent := sendHello (.initiator md5 hash randomKey) randomKey randByte padding
    ∃ ini resp reply, ini.send = resp.recv ∧ ini.recv = resp.send ∧
      (∀ rest toR, Cuts toR (sent.1 ++ rest) → ∃ left,
        obfAccept md5 hash toR = .ok (.obfuscated resp, reply, left) ∧ Cuts left rest) ∧
      ∀ rest toI, Cuts toI (reply ++ rest) → ∃ left,
        takeReply sent.2 toI = .ok (ini, left) ∧ Cuts left rest := by
  have hini : StreamCiphers.initiator md5 hash randomKey =
      ⟨tcpCipher md5 hash MAGICVALUE_REQUESTER randomKey,
        tcpCipher md5 hash MAGICVALUE_SERVER randomKey⟩ := rfl
  have hresp : StreamCiphers.responder md5 hash randomKey =
      ⟨tcpCipher md5 hash MAGICVALUE_SERVER randomKey,
        tcpCipher md5 hash MAGICVALUE_REQUESTER randomKey⟩ := rfl
  have haccept := @obfAccept_of_cuts md5 hash randomKey randByte
  rw [hresp] at haccept
  rw [hini, sendHello_eq]
  -- the two directions' keystreams, whatever they are
  generalize tcpCipher md5 hash MAGICVALUE_REQUESTER randomKey = c at haccept ⊢
  generalize tcpCipher md5 hash MAGICVALUE_SERVER randomKey = d at haccept ⊢
  have hpad : (padding.take 254).length < 256 := by
    rw [List.length_take]
    omega
  generalize padding.take 254 = pad at hpad ⊢
  refine ⟨⟨(c.apply (helloHead pad ++ pad)).2, (d.apply replyPlain).2⟩,
    ⟨(d.apply replyPlain).2, (c.apply (helloHead pad ++ pad)).2⟩, (d.apply replyPlain).1, rfl, rfl,
    fun rest toR h => ?_, fun rest toI h => takeReply_of_cuts d _ h⟩
  rw [List.append_assoc, List.append_assoc] at h
  obtain ⟨middle, hmiddle, hdetect⟩ := haccept h
  obtain ⟨left, hanswer, hleft⟩ := answerHello_of_cuts c d hpad hmiddle
  exact ⟨left, by rw [hdetect, hanswer]; rfl, hleft⟩

/-! ## The two ends -/

section

variable (md5 : Bytes → Bytes) (inflate : Bytes → Nat → Option Bytes)

/-- An end that opens an obfuscated connection: what it sends, and what its reads return. The
    source takes the low byte of the key as the marker's random byte. -/
def initiatorEnd (targetHash : Hash16) (randomKey : UInt32) (randByte : UInt8) (padding : Bytes)
    (chunks : List Bytes) (ops : List EndOp) : Except FrameError (Bytes × List ReadResult) := do
  let (hello, ciphers) :=
    sendHello (.initiator md5 targetHash randomKey) randomKey randByte padding
  let (ciphers, chunks) ← takeReply ciphers chunks
  let (sent, got) := (FramedStream.obfuscated ciphers).session inflate chunks ops
  return (hello ++ sent, got)

/-- The stream of a connection that was accepted. -/
def ObfDetect.framed : ObfDetect → FramedStream
  | .plaintext first => .plaintextWithPrefix [first]
  | .obfuscated ciphers => .obfuscated ciphers

/-- An end that has accepted a connection. -/
def responderEnd (ownHash : Hash16) (chunks : List Bytes) (ops : List EndOp) :
    Except FrameError (Bytes × List ReadResult) := do
  let (detected, reply, chunks) ← obfAccept md5 ownHash chunks
  let (sent, got) := detected.framed.session inflate chunks ops
  return (reply ++ sent, got)

/-- What the reads of one end return, when the other end writes these packets. -/
def gotFrom (ops : List EndOp) (ps : List Packet) : List ReadResult :=
  List.zipWith (fun unpack p => asRead inflate unpack (.packet p)) (readKinds ops) ps

theorem delivers_obfuscated {ciphers : StreamCiphers} {c : Rc4} (hc : ciphers.recv = c)
    {chunks : List Bytes} {plain : Bytes} (h : Cuts chunks (c.apply plain).1) :
    Delivers (.obfuscated ciphers) chunks plain := by
  refine ⟨_, h, ?_⟩
  show (ciphers.recv.apply _).1 = plain
  rw [hc, Rc4.apply_apply]

theorem delivers_plaintext (front : Bytes) {chunks : List Bytes} {rest : Bytes}
    (h : Cuts chunks rest) :
    Delivers (.plaintextWithPrefix front) chunks (front ++ rest) := ⟨rest, h, rfl⟩

/-- One end with packets to write and to read, as the other one sees it. -/
structure Dialogue (opsI opsR : List EndOp) : Prop where
  framedI : ∀ p ∈ written opsI, p.Framed
  framedR : ∀ p ∈ written opsR, p.Framed
  readsI : (readKinds opsI).length ≤ (written opsR).length
  readsR : (readKinds opsR).length ≤ (written opsI).length

variable {opsI opsR : List EndOp}

theorem obfuscated_round_trip (hash : Hash16) (randomKey : UInt32) (randByte : UInt8)
    (padding : Bytes) (h : Dialogue opsI opsR) :
    ∃ streamI streamR,
      (∀ toI, Cuts toI streamR →
        initiatorEnd md5 inflate hash randomKey randByte padding toI opsI =
          .ok (streamI, gotFrom inflate opsI (written opsR))) ∧
      ∀ toR, Cuts toR streamI →
        responderEnd md5 inflate hash toR opsR =
          .ok (streamR, gotFrom inflate opsR (written opsI)) := by
  obtain ⟨ini, resp, reply, hsend, hrecv, haccept, hreply⟩ :=
    handshake_pairs md5 hash randomKey randByte padding
  generalize hsent : sendHello (.initiator md5 hash randomKey) randomKey randByte padding = sent
    at haccept hreply
  refine ⟨sent.1 ++ (ini.send.apply ((written opsI).flatMap writePacket)).1,
    reply ++ (resp.send.apply ((written opsR).flatMap writePacket)).1,
    fun toI htoI => ?_, fun toR htoR => ?_⟩
  · obtain ⟨left, htake, hleft⟩ := hreply _ _ htoI
    have hsession := session_eq inflate h.framedR (delivers_obfuscated hrecv hleft) h.readsI
    simp only [initiatorEnd, hsent, htake, bind, Except.bind, hsession]
    rfl
  · obtain ⟨left, htake, hleft⟩ := haccept _ _ htoR
    have hsession := session_eq inflate h.framedI (delivers_obfuscated hsend.symm hleft) h.readsR
    simp only [responderEnd, htake, bind, Except.bind, ObfDetect.framed, hsession]
    rfl

/-- In plaintext, with both ends told so, and with the responder telling from the first byte. -/
theorem plaintext_round_trip (hash : Hash16) (h : Dialogue opsI opsR) :
    ∃ streamI streamR,
      (∀ toI, Cuts toI streamR → FramedStream.new.session inflate toI opsI =
        (streamI, gotFrom inflate opsI (written opsR))) ∧
      (∀ toR, Cuts toR streamI → FramedStream.new.session inflate toR opsR =
        (streamR, gotFrom inflate opsR (written opsI))) ∧
      ∀ p rest, written opsI = p :: rest → p.protocol ∈ PLAINTEXT_MARKERS →
        ∀ toR, Cuts toR streamI → responderEnd md5 inflate hash toR opsR =
          .ok (streamR, gotFrom inflate opsR (written opsI)) := by
  refine ⟨(written opsI).flatMap writePacket, (written opsR).flatMap writePacket,
    fun toI htoI => session_eq inflate h.framedR (delivers_plaintext [] htoI) h.readsI,
    fun toR htoR => session_eq inflate h.framedI (delivers_plaintext [] htoR) h.readsR,
    fun p rest hp hmarker toR htoR => ?_⟩
  have hfirst : (written opsI).flatMap writePacket = [p.protocol] ++
      (writeU32 (.ofNat (1 + p.payload.length)) ++ p.opcode :: p.payload ++
        rest.flatMap writePacket) := by
    rw [hp]
    rfl
  rw [hfirst] at htoR
  obtain ⟨left, hread, hleft⟩ := exactly_of_cuts (n := 1) htoR rfl
  have hplain : isPlaintextMarker p.protocol = true := decide_eq_true hmarker
  have hcarries := delivers_plaintext [p.protocol] hleft
  rw [← hfirst] at hcarries
  have hsession := session_eq inflate h.framedI hcarries h.readsR
  simp only [responderEnd, obfAccept, hread, bind, Except.bind, List.headD_cons, hplain, if_true,
    pure, Except.pure, ObfDetect.framed, hsession]
  rfl

/-- The transport gives back what was put in. With any hash, key, marker and padding the handshake
    pairs the ciphers of the two directions, and with any packets, order of writes and reads and
    cuts of the streams each end reads what the other wrote, obfuscated or in plaintext. What was
    packed is unpacked to the same payload under its opcode. The first byte tells the packets of
    the three markers from a hello. -/
theorem transport_round_trip {deflate : Bytes → Bytes} (hzlib : ZlibRoundTrips deflate inflate)
    (h : Dialogue opsI opsR) (hash : Hash16) (randomKey : UInt32) (randByte : UInt8)
    (padding : Bytes) :
    (let sent := sendHello (.initiator md5 hash randomKey) randomKey randByte padding
      ∃ ini resp reply, ini.send = resp.recv ∧ ini.recv = resp.send ∧
        (∀ rest toR, Cuts toR (sent.1 ++ rest) → ∃ left,
          obfAccept md5 hash toR = .ok (.obfuscated resp, reply, left) ∧ Cuts left rest) ∧
        ∀ rest toI, Cuts toI (reply ++ rest) → ∃ left,
          takeReply sent.2 toI = .ok (ini, left) ∧ Cuts left rest) ∧
    (∃ streamI streamR,
      (∀ toI, Cuts toI streamR →
        initiatorEnd md5 inflate hash randomKey randByte padding toI opsI =
          .ok (streamI, gotFrom inflate opsI (written opsR))) ∧
      ∀ toR, Cuts toR streamI →
        responderEnd md5 inflate hash toR opsR =
          .ok (streamR, gotFrom inflate opsR (written opsI))) ∧
    (∃ streamI streamR,
      (∀ toI, Cuts toI streamR → FramedStream.new.session inflate toI opsI =
        (streamI, gotFrom inflate opsI (written opsR))) ∧
      (∀ toR, Cuts toR streamI → FramedStream.new.session inflate toR opsR =
        (streamR, gotFrom inflate opsR (written opsI))) ∧
      ∀ p rest, written opsI = p :: rest → p.protocol ∈ PLAINTEXT_MARKERS →
        ∀ toR, Cuts toR streamI → responderEnd md5 inflate hash toR opsR =
          .ok (streamR, gotFrom inflate opsR (written opsI))) ∧
    (∀ p : Packet, p.Framed → p.protocol ∉ [PROT_PACKED, PROT_KAD, PROT_ED2KV2] →
      (compress deflate p).Framed ∧ ∃ q,
        asRead inflate true (.packet (compress deflate p)) = .packet q ∧ q.opcode = p.opcode ∧
          q.payload = p.payload) ∧
    (∀ p : Packet, p.protocol ∈ PLAINTEXT_MARKERS →
      isPlaintextMarker ((writePacket p).headD 0) = true) ∧
    isPlaintextMarker
      ((sendHello (.initiator md5 hash randomKey) randomKey randByte padding).1.headD 0) =
        false := by
  refine ⟨handshake_pairs md5 hash randomKey randByte padding,
    obfuscated_round_trip md5 inflate hash randomKey randByte padding h,
    plaintext_round_trip md5 inflate hash h,
    fun p hp hprot => ⟨hp.compress, asRead_compress inflate hzlib hp hprot⟩,
    fun p hmarker => decide_eq_true hmarker, semiRandomMarker_not_plaintext randByte⟩

/-- A packed packet from the initiator, read whole and unpacked, and nothing back. -/
theorem transport_round_trip_packed :
    ∃ streamI streamR,
      (∀ toI, Cuts toI streamR →
        initiatorEnd (fun _ => []) sampleInflate (Digest.fill 16 7) 3 0xE3 [1, 2] toI
          [.write (compress sampleDeflate ⟨PROT_EMULE, 1, packable⟩)] = .ok (streamI, [])) ∧
      ∀ toR, Cuts toR streamI →
        responderEnd (fun _ => []) sampleInflate (Digest.fill 16 7) toR [.read true] =
          .ok (streamR, [.packet ⟨PROT_EMULE, 1, packable⟩]) :=
  (@transport_round_trip (fun _ => []) sampleInflate
    [.write (compress sampleDeflate ⟨PROT_EMULE, 1, packable⟩)] [.read true] sampleDeflate
    sample_roundTrips
    ⟨by decide, by decide, by decide, by decide⟩ (Digest.fill 16 7) 3 0xE3 [1, 2]).2.1

end

/-- A Kad packet in plaintext is within the limits and read as such, and the responder takes its
    first byte for that of a hello. -/
theorem kad_header_taken_for_hello :
    (⟨PROT_KAD, 1, []⟩ : Packet).Framed ∧
      FramedStream.new.session (fun _ _ => none) [writePacket ⟨PROT_KAD, 1, []⟩] [.read false] =
        ([], [.packet ⟨PROT_KAD, 1, []⟩]) ∧
      isPlaintextMarker ((writePacket ⟨PROT_KAD, 1, []⟩).headD 0) = false ∧
      responderEnd (fun _ => []) (fun _ _ => none) (Digest.fill 16 7)
        [writePacket ⟨PROT_KAD, 1, []⟩] [.read false] = .error .io :=
  ⟨by decide, rfl, by decide, rfl⟩

end PadMule.Engine
