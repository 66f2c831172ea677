import PadMule.Engine.ObfHandshake
import PadMule.Engine.PeerHello
import PadMule.Lib.Runs

/-
  `mule-engine/src/peer_conn.rs`: two ends that say HELLO to each other.

  Each end is where its `async fn` waits, and what has been written to it and not been read is in
  its inbox. A step is one end going on as far as its next wait, with a read that takes any number
  of the bytes that are there, or one end giving up, whatever of what it wrote is lost with it.
  What a read makes of a frame that is coming does not depend on how it comes (`Coming.await`), and
  what the obfuscation handshake makes of its first bytes not on what is behind them
  (`steady_obfAccept`, `steady_takeReply`).
-/

namespace PadMule.Engine.Peer

open PadMule.Proto LittleEndian Chunks Runs

/-- How an end fails: a `FrameError`, or its caller's timeout. -/
inductive Failure where
  | protocol (e : IoError)
  | io
  | closed
  | gaveUp
deriving DecidableEq

def Failure.ofFrame : FrameError → Failure
  | .protocol e => .protocol e
  | .io => .io

/-- What `obf_initiate_with` is given. -/
structure Obfuscation where
  targetHash : Hash16
  randomKey : UInt32
  padding : Bytes
deriving DecidableEq

/-- `connect_peer` and `connect_peer_obf`: where the opener waits. -/
inductive Opener where
  | connected (opening : Option Obfuscation)
  | obfuscating (ciphers : StreamCiphers)
  | ready (fs : FramedStream)
  | awaiting (fs : FramedStream)
  | met (fs : FramedStream) (peer : ParsedHello)
  | failed (e : Failure)
deriving DecidableEq

/-- `accept_peer`: where the accepter waits. -/
inductive Accepter where
  | accepted
  | awaiting (fs : FramedStream)
  | answering (fs : FramedStream) (peer : ParsedHello)
  | met (fs : FramedStream) (peer : ParsedHello)
  | failed (e : Failure)
deriving DecidableEq

/-- What is in the inbox, as one chunk. -/
def chunksOf (inbox : Bytes) : List Bytes := if inbox = [] then [] else [inbox]

/-- What is read of the packet with the other end's HELLO. -/
def helloOfPacket (want : UInt8) (isHello : Bool) : ReadResult → Except Failure ParsedHello
  | .packet p =>
    if p.opcode ≠ want then .error (.protocol (.badTag p.opcode))
    else (parseHello p.payload isHello).mapError .protocol
  | .protocol e => .error (.protocol e)
  | .ended .closed => .error .closed
  | .ended .failed => .error .io
  | .ended .dropped => .error .gaveUp

section

variable (md5 : Bytes → Bytes) (inflate : Bytes → Nat → Option Bytes)

/-- A wait of `read_unpacked`: the packet is in the buffer, or the socket gives `n` bytes, or
    neither of them will be. -/
def awaitPacket (fs : FramedStream) (inbox : Bytes) (closed : Bool) (n : Nat) :
    Option (FramedStream × Option ReadResult × Bytes) :=
  match fs.parse with
  | some (fs, result) => some (fs, some (unpacked inflate result), inbox)
  | none =>
    if 0 < n ∧ n ≤ inbox.length then some (fs.receive (inbox.take n), none, inbox.drop n)
    else if inbox = [] ∧ closed then some (fs, some (.ended .closed), [])
    else none

/-- The opener goes on: where it waits then, what it writes and what it leaves in its inbox. -/
def Opener.turn (my : HelloInfo) (inbox : Bytes) (closed : Bool) (n : Nat) :
    Opener → Option (Opener × Bytes × Bytes)
  | .connected none => some (.ready .new, [], inbox)
  | .connected (some o) =>
    let (hello, ciphers) := sendHello (.initiator md5 o.targetHash o.randomKey) o.randomKey
      o.randomKey.toUInt8 o.padding
    some (.obfuscating ciphers, hello, inbox)
  | .obfuscating ciphers =>
    match takeReply ciphers (chunksOf inbox) with
    | .ok (ciphers, left) => some (.ready (.obfuscated ciphers), [], left.flatten)
    | .error e =>
      if e = .io ∧ !closed then none else some (.failed (.ofFrame e), [], inbox)
  | .ready fs =>
    let (bytes, fs) := fs.encrypt (writePacket (buildHello my))
    some (.awaiting fs, bytes, inbox)
  | .awaiting fs =>
    (awaitPacket inflate fs inbox closed n).map fun (fs, result, inbox) =>
      match result.map (helloOfPacket OP_HELLOANSWER false) with
      | none => (.awaiting fs, [], inbox)
      | some (.ok peer) => (.met fs peer, [], inbox)
      | some (.error e) => (.failed e, [], inbox)
  | .met _ _ | .failed _ => none

def Accepter.turn (my : HelloInfo) (inbox : Bytes) (closed : Bool) (n : Nat) :
    Accepter → Option (Accepter × Bytes × Bytes)
  | .accepted =>
    match obfAccept md5 my.userHash (chunksOf inbox) with
    | .ok (detected, reply, left) => some (.awaiting detected.framed, reply, left.flatten)
    | .error e =>
      if e = .io ∧ !closed then none else some (.failed (.ofFrame e), [], inbox)
  | .awaiting fs =>
    (awaitPacket inflate fs inbox closed n).map fun (fs, result, inbox) =>
      match result.map (helloOfPacket OP_HELLO true) with
      | none => (.awaiting fs, [], inbox)
      | some (.ok peer) => (.answering fs peer, [], inbox)
      | some (.error e) => (.failed e, [], inbox)
  | .answering fs peer =>
    let (bytes, fs) := fs.encrypt (writePacket (buildHelloAnswer my))
    some (.met fs peer, bytes, inbox)
  | .met _ _ | .failed _ => none

/-- The two ends, and what is under way to each of them. -/
structure Meeting where
  opener : Opener
  accepter : Accepter
  toAccepter : Bytes
  toOpener : Bytes
deriving DecidableEq

def Opener.gone : Opener → Bool
  | .failed _ => true
  | _ => false

def Accepter.gone : Accepter → Bool
  | .failed _ => true
  | _ => false

/-- Whose HELLO an end has that is through. -/
def Opener.peer : Opener → Option ParsedHello
  | .met _ peer => some peer
  | _ => none

def Accepter.peer : Accepter → Option ParsedHello
  | .met _ peer => some peer
  | _ => none

inductive MeetingOp where
  | opener (n : Nat)
  | accepter (n : Nat)
  /-- The caller drops the end, and of what it wrote no more than this arrives. -/
  | openerLeaves (kept : Nat)
  | accepterLeaves (kept : Nat)
deriving DecidableEq

def MeetingOp.leaves : MeetingOp → Bool
  | .opener _ | .accepter _ => false
  | .openerLeaves _ | .accepterLeaves _ => true

def Meeting.start (opening : Option Obfuscation) : Meeting :=
  ⟨.connected opening, .accepted, [], []⟩

/-- `me` opens the connection, `you` accept it. -/
def Meeting.step (me you : HelloInfo) (m : Meeting) : MeetingOp → Option Meeting
  | .opener n =>
    (m.opener.turn md5 inflate me m.toOpener m.accepter.gone n).map fun (opener, out, inbox) =>
      ⟨opener, m.accepter, m.toAccepter ++ out, inbox⟩
  | .accepter n =>
    (m.accepter.turn md5 inflate you m.toAccepter m.opener.gone n).map fun (accepter, out, inbox) =>
      ⟨m.opener, accepter, inbox, m.toOpener ++ out⟩
  | .openerLeaves kept =>
    if m.opener.gone then none
    else some { m with opener := .failed .gaveUp, toAccepter := m.toAccepter.take kept }
  | .accepterLeaves kept =>
    if m.accepter.gone then none
    else some { m with accepter := .failed .gaveUp, toOpener := m.toOpener.take kept }

end

/-! ## Reading the other end's packet -/

theorem cuts_chunksOf (inbox : Bytes) : Cuts (chunksOf inbox) inbox := by
  unfold chunksOf
  split_ifs with hnil
  · exact hnil ▸ .nil
  · exact ⟨List.flatten_singleton, fun chunk h => List.mem_singleton.mp h ▸ hnil⟩

theorem length_crypt (c : Option Rc4) (bytes : Bytes) :
    (crypt c bytes).1.length = bytes.length := by
  cases c with
  | none => rfl
  | some c => exact c.length_apply bytes

/-- What one end encrypts the other one decrypts, and both are at the same place then. -/
theorem crypt_crypt (c : Option Rc4) (bytes : Bytes) :
    crypt c (crypt c bytes).1 = (bytes, (crypt c bytes).2) := by
  cases c with
  | none => rfl
  | some c => exact Prod.ext (c.apply_apply bytes) (congrArg some (c.apply_apply_snd bytes))

/-- What the buffer holds and what is to come is this frame, and the cipher is this one then. -/
structure Coming (fs : FramedStream) (rest frame : Bytes) (after : Option Rc4) : Prop where
  plain : fs.buf ++ (crypt fs.recv rest).1 = frame
  recv : (crypt fs.recv rest).2 = after

theorem Coming.receive {fs : FramedStream} {chunk rest frame : Bytes} {after : Option Rc4}
    (h : Coming fs (chunk ++ rest) frame after) : Coming (fs.receive chunk) rest frame after := by
  obtain ⟨hplain, hrecv⟩ := h
  rw [crypt_append] at hplain hrecv
  refine ⟨?_, ?_⟩
  · rw [FramedStream.receive_buf, FramedStream.receive_recv, List.append_assoc, hplain]
  · rw [FramedStream.receive_recv, hrecv]

theorem Coming.encrypt {fs : FramedStream} {rest frame : Bytes} {after : Option Rc4}
    (h : Coming fs rest frame after) (bytes : Bytes) :
    Coming (fs.encrypt bytes).2 rest frame after := by
  refine ⟨?_, ?_⟩
  · rw [FramedStream.encrypt_buf, FramedStream.encrypt_recv, h.plain]
  · rw [FramedStream.encrypt_recv, h.recv]

/-- A frame that was encrypted under this keystream, for one who is at its start. -/
theorem coming_sealed (fs : FramedStream) {c : Option Rc4} (hrecv : fs.recv = c)
    (hbuf : fs.buf = []) (frame : Bytes) : Coming fs (crypt c frame).1 frame (crypt c frame).2 := by
  have hback := crypt_crypt c frame
  exact ⟨by rw [hrecv, hbuf, hback, List.nil_append], by rw [hrecv, hback]⟩

section

variable {md5 : Bytes → Bytes} {inflate : Bytes → Nat → Option Bytes}

/-- Either the read is over, and all of the frame has been taken, or the buffer is short of it. -/
theorem Coming.parse {fs : FramedStream} {p : Packet} {rest : Bytes} {after : Option Rc4}
    (hp : p.Framed) (h : Coming fs rest (writePacket p) after) :
    (fs.parse = none ∧ rest ≠ []) ∨
      fs.parse = some ({ fs with buf := [] }, .packet p) ∧ rest = [] ∧ fs.recv = after := by
  have hplain : fs.buf ++ (crypt fs.recv rest).1 = writePacket p ++ [] := by
    rw [h.plain, List.append_nil]
  rcases parse_frame hp hplain with ⟨hnone, hlt⟩ | ⟨buf, hsome, hnil⟩
  · refine .inl ⟨hnone, fun hrest => ?_⟩
    rw [← h.plain, hrest, crypt_nil, List.append_nil] at hlt
    exact Nat.lt_irrefl _ hlt
  · obtain ⟨rfl, hcrypt⟩ := List.append_eq_nil_iff.mp hnil
    have hrest : rest = [] := by
      rw [← List.length_eq_zero_iff, ← length_crypt fs.recv, hcrypt, List.length_nil]
    refine .inr ⟨hsome, hrest, ?_⟩
    rw [← h.recv, hrest, crypt_nil]

/-- How a wait for a frame ends. -/
inductive Awaited (p : Packet) (after : Option Rc4) (fs : FramedStream) (inbox more : Bytes)
    (closed : Bool) : FramedStream × Option ReadResult × Bytes → Prop where
  | more {fs' : FramedStream} {inbox' : Bytes} (hsend : fs'.send = fs.send)
      (hcoming : Coming fs' (inbox' ++ more) (writePacket p) after)
      (hlt : inbox'.length < inbox.length) :
      Awaited p after fs inbox more closed (fs', none, inbox')
  | whole {fs' : FramedStream} (hsend : fs'.send = fs.send) (hrecv : fs'.recv = after)
      (hbuf : fs'.buf = []) (hinbox : inbox = []) (hmore : more = []) :
      Awaited p after fs inbox more closed (fs', some (.packet p), inbox)
  | lost (hclosed : closed = true) (hinbox : inbox = []) (hmore : more ≠ []) :
      Awaited p after fs inbox more closed (fs, some (.ended .closed), [])

theorem Coming.await {fs : FramedStream} {p : Packet} {inbox more : Bytes} {after : Option Rc4}
    (hp : p.Framed) (hplain : p.protocol ≠ PROT_PACKED)
    (h : Coming fs (inbox ++ more) (writePacket p) after) {closed : Bool} {n : Nat}
    {wait : FramedStream × Option ReadResult × Bytes}
    (hwait : awaitPacket inflate fs inbox closed n = some wait) :
    Awaited p after fs inbox more closed wait := by
  unfold awaitPacket at hwait
  rcases h.parse hp with ⟨hnone, hne⟩ | ⟨hsome, hnil, hrecv⟩
  · rw [hnone] at hwait
    dsimp only at hwait
    split_ifs at hwait with htake hend
    · obtain rfl := Option.some.inj hwait
      rw [← List.take_append_drop n inbox, List.append_assoc] at h
      refine .more (fs.receive_send _) h.receive ?_
      rw [List.length_drop]
      omega
    · obtain rfl := Option.some.inj hwait
      refine .lost hend.2 hend.1 fun hmore => hne ?_
      rw [hend.1, hmore]
      rfl
  · rw [hsome] at hwait
    obtain rfl := Option.some.inj hwait
    obtain ⟨hinbox, hmore⟩ := List.append_eq_nil_iff.mp hnil
    have hresult : unpacked inflate (.packet p) = .packet p := if_neg hplain
    rw [hresult]
    exact .whole rfl hrecv rfl hinbox hmore

/-- Nobody waits for what has come. -/
theorem Coming.goes_on {fs : FramedStream} {p : Packet} {inbox : Bytes} {after : Option Rc4}
    (hp : p.Framed) (h : Coming fs inbox (writePacket p) after) (closed : Bool) :
    ∃ n wait, awaitPacket inflate fs inbox closed n = some wait := by
  unfold awaitPacket
  rcases h.parse hp with ⟨hnone, hne⟩ | ⟨hsome, -, -⟩
  · have hpos : 0 < inbox.length := List.length_pos_iff.mpr hne
    refine ⟨inbox.length, (fs.receive (inbox.take inbox.length), none, inbox.drop inbox.length), ?_⟩
    rw [hnone]
    exact if_pos ⟨hpos, Nat.le_refl _⟩
  · exact ⟨0, _, by rw [hsome]⟩

end

/-! ## The obfuscation handshake before all of it is there -/

theorem steady_exactly (n : Nat) : Steady FrameError.io fun chunks => exactly chunks n where
  ok {chunks chunks' stream more} h h' front left heq := by
    rcases Nat.lt_or_ge stream.length n with hshort | hlong
    · rw [exactly, h.readExact_short hshort] at heq
      cases heq
    · have hfront : (stream.take n).length = n := List.length_take_of_le hlong
      have hsuffix := List.drop_suffix n stream
      rw [← List.take_append_drop n stream] at h h'
      rw [List.append_assoc] at h'
      obtain ⟨read, hread, hrest⟩ := exactly_of_cuts h hfront
      obtain ⟨read', hread', hrest'⟩ := exactly_of_cuts h' hfront
      cases hread.symm.trans heq
      exact ⟨read', _, hread', hsuffix, hrest, hrest'⟩
  error {chunks chunks' stream more} h h' e heq := by
    rw [exactly] at heq
    cases hread : readExact chunks n with
    | none => rw [hread] at heq; cases heq; exact .inl rfl
    | some read => rw [hread] at heq; cases heq

theorem steady_skipPad (recv : Rc4) (padLen : Nat) :
    Steady FrameError.io (skipPad recv padLen) := by
  unfold skipPad
  exact ((steady_exactly padLen).bind fun pad => .pure (recv.apply pad).2).ite (.pure recv)

theorem steady_takeReply (ciphers : StreamCiphers) : Steady FrameError.io (takeReply ciphers) := by
  have hhead : ∀ head : Bytes, Steady FrameError.io fun chunks =>
      if UInt32.ofNat (ofLE ((ciphers.recv.apply head).1.take 4)) ≠ MAGICVALUE_SYNC then
        Except.error (.protocol (.badHeader ((ciphers.recv.apply head).1.headD 0)))
      else (skipPad (ciphers.recv.apply head).2 ((ciphers.recv.apply head).1.getD 5 0).toNat
        chunks).bind fun read => Except.ok (StreamCiphers.mk ciphers.send read.1, read.2) :=
    fun head => Steady.ite (.fail _) ((steady_skipPad _ _).bind fun recv => .pure _)
  exact (steady_exactly 6).bind hhead

/-- The triple that `answer_hello` and `obf_accept` return, with the stream apart. -/
def apart {α β γ : Type} (r : α × β × γ) : (α × β) × γ := ((r.1, r.2.1), r.2.2)

theorem steady_answerHello (ciphers : StreamCiphers) :
    Steady FrameError.io fun chunks => (answerHello ciphers chunks).map apart := by
  have hhead : ∀ head : Bytes, Steady FrameError.io fun chunks =>
      if UInt32.ofNat (ofLE ((ciphers.recv.apply head).1.take 4)) ≠ MAGICVALUE_SYNC then
        Except.error (.protocol (.badHeader ((ciphers.recv.apply head).1.headD 0)))
      else (skipPad (ciphers.recv.apply head).2 ((ciphers.recv.apply head).1.getD 6 0).toNat
        chunks).bind fun read => Except.ok ((StreamCiphers.mk (ciphers.send.apply replyPlain).2
          read.1, (ciphers.send.apply replyPlain).1), read.2) :=
    fun head => Steady.ite (.fail _) ((steady_skipPad _ _).bind fun recv => .pure
      (StreamCiphers.mk (ciphers.send.apply replyPlain).2 recv, (ciphers.send.apply replyPlain).1))
  refine ((steady_exactly 7).bind hhead).congr fun chunks => ?_
  simp only [answerHello, bind]
  cases exactly chunks 7 with
  | error e => rfl
  | ok read =>
    simp only [Except.bind]
    split_ifs
    · rfl
    · cases skipPad (ciphers.recv.apply read.1).2
        ((ciphers.recv.apply read.1).1.getD 6 0).toNat read.2 <;> rfl

theorem steady_obfAccept (md5 : Bytes → Bytes) (ownHash : Hash16) :
    Steady FrameError.io fun chunks => (obfAccept md5 ownHash chunks).map apart := by
  have hkey : ∀ rk : Bytes, Steady FrameError.io fun chunks =>
      ((answerHello (.responder md5 ownHash (.ofNat (ofLE rk))) chunks).map apart).bind
        fun answer => Except.ok ((ObfDetect.obfuscated answer.1.1, answer.1.2), answer.2) :=
    fun rk => (steady_answerHello _).bind
      fun answer => .pure (ObfDetect.obfuscated answer.1, answer.2)
  have hfirst : ∀ first : Bytes, Steady FrameError.io fun chunks =>
      if isPlaintextMarker (first.headD 0) then
        Except.ok ((ObfDetect.plaintext (first.headD 0), ([] : Bytes)), chunks)
      else (exactly chunks 4).bind fun read =>
        ((answerHello (.responder md5 ownHash (.ofNat (ofLE read.1))) read.2).map apart).bind
          fun answer => Except.ok ((ObfDetect.obfuscated answer.1.1, answer.1.2), answer.2) :=
    fun first => Steady.ite (.pure (ObfDetect.plaintext (first.headD 0), []))
      ((steady_exactly 4).bind hkey)
  refine ((steady_exactly 1).bind hfirst).congr fun chunks => ?_
  simp only [obfAccept, bind]
  cases exactly chunks 1 with
  | error e => rfl
  | ok read =>
    simp only [Except.bind]
    split_ifs
    · rfl
    · cases exactly read.2 4 with
      | error e => rfl
      | ok rk =>
        dsimp only
        cases answerHello (.responder md5 ownHash (.ofNat (ofLE rk.1))) rk.2 <;> rfl

end PadMule.Engine.Peer
