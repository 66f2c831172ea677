import PadMule.Proto.Framing
import PadMule.Lib.Runs

/-
  `mule-engine/src/framed.rs` and `link.rs`: packets over one connection whose callers give up.

  A caller's timeout drops an operation at any await. A read that is dropped has taken nothing, so
  what was received is in the packets returned or in the buffer. A write has advanced the cipher
  over its whole frame by then and the socket has accepted any prefix of it, and the connection
  stays in the link: the frame that the next operation sends lands behind the torn one. Where
  nothing is sent behind a write that was cut short the stream is whole (`stream_whole`).
-/

namespace PadMule.Engine

open PadMule.Proto

structure StreamCiphers where
  send : Rc4
  recv : Rc4
deriving DecidableEq

structure FramedStream where
  buf : Bytes
  ciphers : Option StreamCiphers
deriving DecidableEq

/-- How a read ends that finds no packet: end of stream, socket error, or dropped by its caller. -/
inductive ReadEnd where
  | closed
  | failed
  | dropped
deriving DecidableEq

inductive ReadResult where
  | packet (p : Packet)
  | protocol (e : IoError)
  | ended (ending : ReadEnd)
deriving DecidableEq

/-- What the socket gives to a read, one chunk for each wait, and what it ends with. -/
structure Reading where
  chunks : List Bytes
  ending : ReadEnd
deriving DecidableEq

namespace FramedStream

/-- Encrypt the bytes we are about to send. -/
def encrypt (fs : FramedStream) (bytes : Bytes) : Bytes × FramedStream :=
  match fs.ciphers with
  | none => (bytes, fs)
  | some c => ((c.send.apply bytes).1, { fs with ciphers := some ⟨(c.send.apply bytes).2, c.recv⟩ })

/-- Decrypt the bytes just read into the buffer. -/
def receive (fs : FramedStream) (chunk : Bytes) : FramedStream :=
  match fs.ciphers with
  | none => { fs with buf := fs.buf ++ chunk }
  | some c => ⟨fs.buf ++ (c.recv.apply chunk).1, some ⟨c.send, (c.recv.apply chunk).2⟩⟩

/-- What the buffer holds, if it decides the read. -/
def parse (fs : FramedStream) : Option (FramedStream × ReadResult) :=
  match Proto.readPacket fs.buf with
  | .error e => some (fs, .protocol e)
  | .ok (some (p, consumed)) => some ({ fs with buf := fs.buf.drop consumed }, .packet p)
  | .ok none => none

/-- `read_packet`, and the bytes it takes from the socket. -/
def readPacket (fs : FramedStream) (ending : ReadEnd) :
    List Bytes → FramedStream × Bytes × ReadResult
  | [] =>
    match fs.parse with
    | some (fs, result) => (fs, [], result)
    | none => (fs, [], .ended ending)
  | chunk :: chunks =>
    match fs.parse with
    | some (fs, result) => (fs, [], result)
    | none =>
      if chunk = [] then (fs, [], .ended .closed)
      else
        let (after, received, result) := (fs.receive chunk).readPacket ending chunks
        (after, chunk ++ received, result)

/-- `write_packet`, of which the socket accepts that many bytes before the future is dropped. -/
def writePacket (fs : FramedStream) (p : Packet) (accepted : Nat) : Bytes × FramedStream :=
  let (bytes, fs) := fs.encrypt (Proto.writePacket p)
  (bytes.take accepted, fs)

end FramedStream

/-! ## Bytes through a cipher -/

/-- Bytes through the cipher, if there is one. -/
def crypt : Option Rc4 → Bytes → Bytes × Option Rc4
  | none, bytes => (bytes, none)
  | some c, bytes => ((c.apply bytes).1, some (c.apply bytes).2)

theorem crypt_append (c : Option Rc4) (a b : Bytes) :
    crypt c (a ++ b) =
      ((crypt c a).1 ++ (crypt (crypt c a).2 b).1, (crypt (crypt c a).2 b).2) := by
  cases c with
  | none => rfl
  | some c => simp only [crypt, Rc4.apply, StreamCipher.apply_append]

theorem crypt_take (c : Option Rc4) (a : Bytes) (n : Nat) :
    (crypt c (a.take n)).1 = (crypt c a).1.take n := by
  cases c with
  | none => rfl
  | some c => exact StreamCipher.apply_take _ _ c a n

@[simp] theorem crypt_nil (c : Option Rc4) : crypt c [] = ([], c) := by
  cases c <;> rfl

namespace FramedStream

def send (fs : FramedStream) : Option Rc4 := fs.ciphers.map StreamCiphers.send

def recv (fs : FramedStream) : Option Rc4 := fs.ciphers.map StreamCiphers.recv

@[simp] theorem encrypt_fst (fs : FramedStream) (bytes : Bytes) :
    (fs.encrypt bytes).1 = (crypt fs.send bytes).1 := by
  obtain ⟨buf, _ | c⟩ := fs <;> rfl

@[simp] theorem encrypt_send (fs : FramedStream) (bytes : Bytes) :
    (fs.encrypt bytes).2.send = (crypt fs.send bytes).2 := by
  obtain ⟨buf, _ | c⟩ := fs <;> rfl

@[simp] theorem encrypt_recv (fs : FramedStream) (bytes : Bytes) :
    (fs.encrypt bytes).2.recv = fs.recv := by
  obtain ⟨buf, _ | c⟩ := fs <;> rfl

@[simp] theorem encrypt_buf (fs : FramedStream) (bytes : Bytes) :
    (fs.encrypt bytes).2.buf = fs.buf := by
  obtain ⟨buf, _ | c⟩ := fs <;> rfl

@[simp] theorem receive_buf (fs : FramedStream) (chunk : Bytes) :
    (fs.receive chunk).buf = fs.buf ++ (crypt fs.recv chunk).1 := by
  obtain ⟨buf, _ | c⟩ := fs <;> rfl

@[simp] theorem receive_recv (fs : FramedStream) (chunk : Bytes) :
    (fs.receive chunk).recv = (crypt fs.recv chunk).2 := by
  obtain ⟨buf, _ | c⟩ := fs <;> rfl

@[simp] theorem receive_send (fs : FramedStream) (chunk : Bytes) :
    (fs.receive chunk).send = fs.send := by
  obtain ⟨buf, _ | c⟩ := fs <;> rfl

/-! ## A read takes what it is given -/

/-- The bytes of the packet that a read returns. -/
def frame : ReadResult → Bytes
  | .packet p => Proto.writePacket p
  | .protocol _ | .ended _ => []

/-- From `fs` to `after` the bytes `received` went through the cipher into the buffer, and the
    frame of the result left it. -/
structure Took (fs after : FramedStream) (received : Bytes) (result : ReadResult) : Prop where
  bytes : fs.buf ++ (crypt fs.recv received).1 = frame result ++ after.buf
  recv : after.recv = (crypt fs.recv received).2
  send : after.send = fs.send

theorem Took.refl {fs : FramedStream} {result : ReadResult} (h : frame result = []) :
    Took fs fs [] result := by
  refine ⟨?_, ?_, rfl⟩
  · simp [h]
  · simp

theorem took_parse {fs after : FramedStream} {result : ReadResult}
    (h : fs.parse = some (after, result)) : Took fs after [] result := by
  rw [parse] at h
  split at h
  next e =>
    obtain ⟨rfl, rfl⟩ := Prod.mk.inj (Option.some.inj h)
    exact .refl rfl
  next p consumed hread =>
    obtain ⟨rfl, rfl⟩ := Prod.mk.inj (Option.some.inj h)
    refine ⟨?_, ?_, rfl⟩
    · simpa [frame] using readPacket_frame hread
    · rw [crypt_nil]
      rfl
  next => cases h

/-- A read, dropped or not, loses nothing of what it has taken and decrypts it once. -/
theorem took_readPacket (fs : FramedStream) (ending : ReadEnd) (chunks : List Bytes) :
    Took fs (fs.readPacket ending chunks).1 (fs.readPacket ending chunks).2.1
      (fs.readPacket ending chunks).2.2 := by
  induction chunks generalizing fs with
  | nil =>
    rw [readPacket]
    cases hparse : fs.parse with
    | none => exact .refl rfl
    | some parsed => exact took_parse hparse
  | cons chunk chunks ih =>
    rw [readPacket]
    cases hparse : fs.parse with
    | some parsed => exact took_parse hparse
    | none =>
      split_ifs with hclosed
      · exact .refl rfl
      · obtain ⟨hbytes, hrecv, hsend⟩ := ih (fs.receive chunk)
        simp only [receive_buf, receive_recv, receive_send] at hbytes hrecv hsend
        refine ⟨?_, ?_, hsend⟩
        · rw [crypt_append, ← List.append_assoc]
          exact hbytes
        · rw [crypt_append]
          exact hrecv

end FramedStream

/-! ## One connection -/

/-- A write and how much of its frame went out. -/
structure Sending where
  packet : Packet
  accepted : Nat
deriving DecidableEq

def Sending.frame (e : Sending) : Bytes := writePacket e.packet

def Sending.out (e : Sending) : Bytes := e.frame.take e.accepted

def Sending.Whole (e : Sending) : Prop := e.frame.length ≤ e.accepted

instance (e : Sending) : Decidable e.Whole := inferInstanceAs (Decidable (_ ≤ _))

/-- The stream, whether the link still holds it, and what went over it. -/
structure Line where
  fs : FramedStream
  up : Bool
  log : List Sending
  sent : Bytes
  received : Bytes
  returned : List Packet
deriving DecidableEq

-- the decompression of `read_packet_unpacked`
variable (unpack : Packet → Option Packet)

namespace Line

def new (fs : FramedStream) : Line := ⟨fs, true, [], [], [], []⟩

def write (w : Line) (p : Packet) (accepted : Nat) : Line :=
  let (bytes, fs) := w.fs.writePacket p accepted
  { w with fs, log := w.log ++ [⟨p, accepted⟩], sent := w.sent ++ bytes }

def read (w : Line) (r : Reading) : Line × ReadResult :=
  let (fs, received, result) := w.fs.readPacket r.ending r.chunks
  let returned :=
    match result with
    | .packet p => w.returned ++ [p]
    | .protocol _ | .ended _ => w.returned
  ({ w with fs, received := w.received ++ received, returned }, result)

/-- The loop of `request`; it is over when the readings are, at the latest. -/
def awaitAnswer (w : Line) (want : UInt8) : List Reading → Line
  | [] => w
  | r :: rs =>
    match w.read r with
    | (w, .packet p) =>
      match unpack p with
      | none => w
      | some p => if p.opcode = want then w else w.awaitAnswer want rs
    | (w, .protocol _) | (w, .ended _) => w

def request (w : Line) (pkt : Packet) (want : UInt8) (accepted : Nat) (rs : List Reading) : Line :=
  if accepted < (writePacket pkt).length then w.write pkt accepted
  else (w.write pkt accepted).awaitAnswer unpack want rs

/-- The loop of `poll_incoming`. -/
def drain (w : Line) : List Reading → Line
  | [] => w
  | r :: rs =>
    match w.read r with
    | (w, .packet p) =>
      match unpack p with
      | none => { w with up := false }
      | some _ => w.drain rs
    | (w, .protocol _) | (w, .ended .closed) | (w, .ended .failed) => { w with up := false }
    | (w, .ended .dropped) => w

def pollIncoming (w : Line) (rs : List Reading) : Line := w.drain unpack (rs.take 64)

end Line

inductive LineOp where
  /-- `offer_files`, `request_callback` and `request_server_list`. -/
  | send (pkt : Packet) (accepted : Nat)
  | request (pkt : Packet) (want : UInt8) (accepted : Nat) (rs : List Reading)
  | pollIncoming (rs : List Reading)
  /-- `FramedStream::read_packet` by itself. -/
  | read (r : Reading)
deriving DecidableEq

def Line.step (w : Line) (op : LineOp) : Option Line :=
  if w.up then
    match op with
    | .send pkt accepted => some (w.write pkt accepted)
    | .request pkt want accepted rs => some (w.request unpack pkt want accepted rs)
    | .pollIncoming rs => some (w.pollIncoming unpack rs)
    | .read r => some (w.read r).1
  else none

/-! ## Whole streams -/

/-- The writes that put something on the socket. -/
def Line.kept (w : Line) : List Sending := w.log.filter fun e => e.accepted ≠ 0

/-- The bytes sent are whole frames behind each other under one contiguous keystream, only the
    last of them maybe cut short. -/
structure Untorn (start : FramedStream) (w : Line) : Prop where
  whole : ∀ e ∈ w.kept.dropLast, e.Whole
  bytes : w.sent = (start.encrypt (w.kept.flatMap Sending.out)).1

/-- The bytes received, each decrypted once, are those of the packets returned and the buffer. -/
def AllKept (start : FramedStream) (w : Line) : Prop :=
  (start.receive w.received).buf = w.returned.flatMap writePacket ++ w.fs.buf

/-- Nothing is sent behind a write that was cut short; a plaintext write that put nothing on the
    socket is none. -/
def Clean (w : Line) : LineOp → Prop
  | .send _ accepted | .request _ _ accepted _ =>
    0 < accepted → ∀ e ∈ w.log, e.Whole ∨ e.accepted = 0 ∧ w.fs.ciphers = none
  | .pollIncoming _ | .read _ => True

/-! ## What an operation does to the line -/

/-- The ciphers stand behind all that was received, and behind all frames that were encrypted. -/
structure InStep (start : FramedStream) (w : Line) : Prop where
  kept : AllKept start w
  recv : w.fs.recv = (crypt start.recv w.received).2
  send : w.fs.send = (crypt start.send (w.log.flatMap Sending.frame)).2

/-- From `w` to `w'` the line was only read. -/
structure OnlyRead (start : FramedStream) (w w' : Line) : Prop where
  inStep : InStep start w → InStep start w'
  log : w'.log = w.log
  sent : w'.sent = w.sent

theorem OnlyRead.refl (start : FramedStream) (w : Line) : OnlyRead start w w := ⟨id, rfl, rfl⟩

theorem OnlyRead.trans {start : FramedStream} {w₁ w₂ w₃ : Line} (h : OnlyRead start w₁ w₂)
    (h' : OnlyRead start w₂ w₃) : OnlyRead start w₁ w₃ :=
  ⟨h'.inStep ∘ h.inStep, h'.log.trans h.log, h'.sent.trans h.sent⟩

theorem OnlyRead.untorn {start : FramedStream} {w w' : Line} (h : OnlyRead start w w')
    (hw : Untorn start w) : Untorn start w' := by
  have hkept : w'.kept = w.kept := by rw [Line.kept, Line.kept, h.log]
  exact ⟨hkept ▸ hw.whole, by rw [h.sent, hkept, hw.bytes]⟩

theorem onlyRead_read (start : FramedStream) (w : Line) (r : Reading) :
    OnlyRead start w (w.read r).1 := by
  refine ⟨fun h => ?_, rfl, rfl⟩
  have htook := FramedStream.took_readPacket w.fs r.ending r.chunks
  rw [Line.read]
  generalize w.fs.readPacket r.ending r.chunks = read at htook ⊢
  obtain ⟨after, received, result⟩ := read
  obtain ⟨hbytes, hrecv, hsend⟩ := htook
  have hkept := h.kept
  rw [AllKept, FramedStream.receive_buf] at hkept
  refine ⟨?_, ?_, hsend.trans h.send⟩
  · rw [AllKept, FramedStream.receive_buf, crypt_append, ← h.recv, ← List.append_assoc, hkept,
      List.append_assoc, hbytes]
    cases result with
    | packet p => simp [FramedStream.frame]
    | protocol e => rfl
    | ended ending => rfl
  · rw [crypt_append, ← h.recv]
    exact hrecv

theorem onlyRead_awaitAnswer (start : FramedStream) (want : UInt8) (rs : List Reading) (w : Line) :
    OnlyRead start w (w.awaitAnswer unpack want rs) := by
  induction rs generalizing w with
  | nil => exact .refl start w
  | cons r rs ih =>
    have hread := onlyRead_read start w r
    rw [Line.awaitAnswer]
    generalize w.read r = read at hread ⊢
    obtain ⟨after, result⟩ := read
    cases result with
    | packet p =>
      cases hunpack : unpack p with
      | none => simpa only [hunpack] using hread
      | some answer =>
        simp only [hunpack]
        split_ifs
        · exact hread
        · exact hread.trans (ih after)
    | protocol e => exact hread
    | ended ending => exact hread

theorem onlyRead_drain (start : FramedStream) (rs : List Reading) (w : Line) :
    OnlyRead start w (w.drain unpack rs) := by
  induction rs generalizing w with
  | nil => exact .refl start w
  | cons r rs ih =>
    have hread := onlyRead_read start w r
    rw [Line.drain]
    generalize w.read r = read at hread ⊢
    obtain ⟨after, result⟩ := read
    have hdown : OnlyRead start w { after with up := false } :=
      hread.trans ⟨fun h => ⟨h.kept, h.recv, h.send⟩, rfl, rfl⟩
    cases result with
    | packet p =>
      cases hunpack : unpack p with
      | none => simpa only [hunpack] using hdown
      | some answer =>
        simp only [hunpack]
        exact hread.trans (ih after)
    | protocol e => exact hdown
    | ended ending =>
      cases ending with
      | closed => exact hdown
      | failed => exact hdown
      | dropped => exact hread

theorem InStep.write {start : FramedStream} {w : Line} (h : InStep start w) (p : Packet)
    (accepted : Nat) : InStep start (w.write p accepted) := by
  refine ⟨?_, ?_, ?_⟩
  · have hkept := h.kept
    rw [AllKept] at hkept ⊢
    simpa [Line.write, FramedStream.writePacket] using hkept
  · simpa [Line.write, FramedStream.writePacket] using h.recv
  · simp [Line.write, FramedStream.writePacket, crypt_append, h.send, Sending.frame]

theorem Sending.Whole.out {e : Sending} (h : e.Whole) : e.out = e.frame :=
  List.take_of_length_le h

theorem Sending.Whole.pos {e : Sending} (h : e.Whole) : e.accepted ≠ 0 := by
  have hlen : 0 < e.frame.length := by simp [Sending.frame, length_writePacket, HEADER_SIZE]
  exact (lt_of_lt_of_le hlen h).ne'

/-- Where all writes are whole, what is on the socket is all that was encrypted. -/
theorem flatMap_out_of_whole {log : List Sending} (h : ∀ e ∈ log, e.Whole) :
    (log.filter fun e => e.accepted ≠ 0).flatMap Sending.out = log.flatMap Sending.frame := by
  have hkept : (log.filter fun e => e.accepted ≠ 0) = log :=
    List.filter_eq_self.mpr fun e he => by simpa using (h e he).pos
  rw [hkept]
  exact List.flatMap_congr fun e he => (h e he).out

/-- Behind frames that are whole, or left nothing, a write leaves the stream whole. -/
theorem Untorn.write {start : FramedStream} {w : Line} (h : Untorn start w) (hstep : InStep start w)
    {p : Packet} {accepted : Nat}
    (hclean : 0 < accepted → ∀ e ∈ w.log, e.Whole ∨ e.accepted = 0 ∧ w.fs.ciphers = none) :
    Untorn start (w.write p accepted) := by
  have hsent : (w.write p accepted).sent =
      w.sent ++ (crypt w.fs.send ((writePacket p).take accepted)).1 := by
    simp [Line.write, FramedStream.writePacket, crypt_take]
  rcases Nat.eq_zero_or_pos accepted with rfl | hpos
  · have hkept : (w.write p 0).kept = w.kept := by simp [Line.kept, Line.write]
    refine ⟨hkept ▸ h.whole, ?_⟩
    rw [hsent, hkept, ← h.bytes]
    simp
  · have hcipher := hstep.send
    have hkept : (w.write p accepted).kept = w.kept ++ [⟨p, accepted⟩] := by
      simp [Line.kept, Line.write, hpos.ne']
    refine ⟨fun e he => ?_, ?_⟩
    · rw [hkept, List.dropLast_concat] at he
      obtain ⟨hlog, hne⟩ := List.mem_filter.mp he
      exact (hclean hpos e hlog).resolve_right fun hzero => by simp [hzero.1] at hne
    · -- what was put on the socket so far is what the send cipher has gone over
      have hover : (crypt start.send (w.kept.flatMap Sending.out)).2 = w.fs.send := by
        cases hciphers : w.fs.ciphers with
        | none =>
          have hplain : w.fs.send = none := by rw [FramedStream.send, hciphers]; rfl
          have hstart : start.send = none := by
            cases hstart : start.send with
            | none => rfl
            | some c => simp [hstart, crypt, hplain] at hcipher
          rw [hstart, hplain]
          rfl
        | some c =>
          have hwhole : ∀ e ∈ w.log, e.Whole := fun e he =>
            (hclean hpos e he).resolve_right fun hzero => by simp [hciphers] at hzero
          rw [Line.kept, flatMap_out_of_whole hwhole, ← hcipher]
      rw [hsent, hkept, h.bytes, List.flatMap_append, FramedStream.encrypt_fst,
        FramedStream.encrypt_fst, crypt_append, hover]
      simp [Sending.out, Sending.frame]

/-! ## Whole runs -/

theorem InStep.request {start : FramedStream} {w : Line} (h : InStep start w) (pkt : Packet)
    (want : UInt8) (accepted : Nat) (rs : List Reading) :
    InStep start (w.request unpack pkt want accepted rs) := by
  rw [Line.request]
  split_ifs
  · exact h.write pkt accepted
  · exact (onlyRead_awaitAnswer unpack start want rs _).inStep (h.write pkt accepted)

theorem InStep.step {start : FramedStream} {w w' : Line} {op : LineOp} (h : InStep start w)
    (hstep : w.step unpack op = some w') : InStep start w' := by
  unfold Line.step at hstep
  split_ifs at hstep
  cases op with
  | send pkt accepted => exact Option.some.inj hstep ▸ h.write pkt accepted
  | request pkt want accepted rs =>
    exact Option.some.inj hstep ▸ h.request unpack pkt want accepted rs
  | pollIncoming rs => exact Option.some.inj hstep ▸ (onlyRead_drain unpack start _ w).inStep h
  | read r => exact Option.some.inj hstep ▸ (onlyRead_read start w r).inStep h

theorem Untorn.step {start : FramedStream} {w w' : Line} {op : LineOp} (h : Untorn start w)
    (hin : InStep start w) (hclean : Clean w op) (hstep : w.step unpack op = some w') :
    Untorn start w' := by
  unfold Line.step at hstep
  split_ifs at hstep
  cases op with
  | send pkt accepted => exact Option.some.inj hstep ▸ h.write hin hclean
  | request pkt want accepted rs =>
    obtain rfl := Option.some.inj hstep
    have hwrite : Untorn start (w.write pkt accepted) := h.write hin hclean
    rw [Line.request]
    split_ifs
    · exact hwrite
    · exact (onlyRead_awaitAnswer unpack start want rs _).untorn hwrite
  | pollIncoming rs => exact Option.some.inj hstep ▸ (onlyRead_drain unpack start _ w).untorn h
  | read r => exact Option.some.inj hstep ▸ (onlyRead_read start w r).untorn h

/-- Over every connection, plaintext or obfuscated and whatever is read ahead, and in every run of
    its operations with every way of dropping them: no byte received is lost or decrypted twice;
    and if nothing is sent behind a write cut short, then what is sent is whole frames under one
    keystream, only the last maybe cut short. -/
theorem stream_whole (start : FramedStream) (ops : List LineOp) :
    Runs.Always (Line.step unpack) (AllKept start) (.new start) ops ∧
      (Runs.Throughout (Line.step unpack) Clean (.new start) ops →
        Runs.Always (Line.step unpack) (Untorn start) (.new start) ops) := by
  have hstart : InStep start (.new start) := by
    refine ⟨?_, ?_, ?_⟩
    · simp [AllKept, Line.new]
    · simp [Line.new]
    · simp [Line.new]
  have huntorn : Untorn start (.new start) := by
    refine ⟨?_, ?_⟩ <;> simp [Line.kept, Line.new]
  refine ⟨?_, fun hclean => ?_⟩
  · exact Runs.always_induct (fun _ _ _ h => h.step unpack) (fun _ h => h.kept) hstart ops
  · have hboth : ∀ (w : Line) op w', InStep start w ∧ Untorn start w → Clean w op →
        w.step unpack op = some w' → InStep start w' ∧ Untorn start w' :=
      fun w op w' h hop hstep => ⟨h.1.step unpack hstep, h.2.step unpack h.1 hop hstep⟩
    exact Runs.always_of_throughout hboth (fun _ h => h.2) ⟨hstart, huntorn⟩ hclean

/-- OP_OFFERFILES for one file of five bytes, named `a`. -/
def oneOffer : Packet :=
  ⟨PROT_EDONKEY, 0x15, writeU32 1 ++ List.replicate 16 0x11 ++ writeU32 0xFBFBFBFB ++
    writeU16 0xFBFB ++ writeU32 2 ++ [2, 1, 0, 1, 1, 0, 97] ++ [3, 1, 0, 2] ++ writeU32 5⟩

/-- OP_GETSERVERLIST. -/
def getServerList : Packet := ⟨PROT_EDONKEY, 0x14, []⟩

/-- The request for the server list goes out whole, and the offer behind it is cut short. -/
theorem cut_at_the_end :
    Runs.Always (Line.step some) (Untorn ⟨[], none⟩) (.new ⟨[], none⟩)
      [.send getServerList 6, .send oneOffer 9] := by
  refine (stream_whole some ⟨[], none⟩ _).2 ⟨?_, fun w hw => ⟨?_, fun w' hw' => trivial⟩⟩
  · intro _ e he
    cases he
  · cases hw
    intro _ e he
    obtain rfl : e = ⟨getServerList, 6⟩ := List.mem_singleton.mp he
    exact .inl (by decide)

/-- `connect_to_server` asks for the server list after the offer, whose timeout has cut it. -/
theorem timeout_tears_a_frame :
    ¬Runs.Always (Line.step some) (Untorn ⟨[], none⟩) (.new ⟨[], none⟩)
      [.send oneOffer 9, .send getServerList 6] := by
  intro h
  have hcut := (h.2 _ rfl).2 _ rfl |>.whole ⟨oneOffer, 9⟩ (by decide)
  exact absurd hcut (by decide)

end PadMule.Engine
