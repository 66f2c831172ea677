import PadMule.Engine.Framed
import PadMule.Lib.Chunks
import PadMule.Proto.Packing

/-
  `mule-engine/src/framed.rs`: the two ends of one connection.

  An end writes and reads in any order. The bytes it writes only depend on the packets, and what is
  in its buffer or under way to it in chunks is all the packets to come, so its reads return them
  one after the other (`session_eq`).
-/

namespace PadMule.Engine

open PadMule.Proto Chunks

namespace FramedStream

def new : FramedStream := ⟨[], none⟩

def obfuscated (ciphers : StreamCiphers) : FramedStream := ⟨[], some ciphers⟩

def plaintextWithPrefix (front : Bytes) : FramedStream := ⟨front, none⟩

/-- `read_packet` on what is under way, and the chunks it leaves; then the stream is closed. -/
def readFrom (fs : FramedStream) : List Bytes → FramedStream × ReadResult × List Bytes
  | [] =>
    match fs.parse with
    | some (fs, result) => (fs, result, [])
    | none => (fs, .ended .closed, [])
  | chunk :: chunks =>
    match fs.parse with
    | some (fs, result) => (fs, result, chunk :: chunks)
    | none =>
      if chunk = [] then (fs, .ended .closed, chunk :: chunks)
      else (fs.receive chunk).readFrom chunks

/-- The same read, told by the bytes that it takes. -/
theorem readFrom_eq (fs : FramedStream) (chunks : List Bytes) :
    ∃ received left, fs.readPacket .closed chunks = ((fs.readFrom chunks).1, received,
        (fs.readFrom chunks).2.1) ∧
      (fs.readFrom chunks).2.2 = left ∧ chunks.flatten = received ++ left.flatten := by
  induction chunks generalizing fs with
  | nil =>
    rw [readPacket, readFrom]
    cases fs.parse with
    | none => exact ⟨[], [], rfl, rfl, rfl⟩
    | some parsed => exact ⟨[], [], rfl, rfl, rfl⟩
  | cons chunk chunks ih =>
    rw [readPacket, readFrom]
    cases fs.parse with
    | some parsed => exact ⟨[], chunk :: chunks, rfl, rfl, rfl⟩
    | none =>
      split_ifs with hclosed
      · exact ⟨[], chunk :: chunks, rfl, rfl, rfl⟩
      · obtain ⟨received, left, hread, hleft, hflat⟩ := ih (fs.receive chunk)
        refine ⟨chunk ++ received, left, ?_, hleft, ?_⟩
        · simp only [hread]
        · rw [List.flatten_cons, hflat, List.append_assoc]

end FramedStream

/-! ## Reading what is under way -/

/-- What the buffer holds and what is under way, decrypted, is this plaintext. -/
def Delivers (fs : FramedStream) (chunks : List Bytes) (plain : Bytes) : Prop :=
  ∃ stream, Cuts chunks stream ∧ fs.buf ++ (crypt fs.recv stream).1 = plain

theorem Delivers.receive {fs : FramedStream} {chunk : Bytes} {chunks : List Bytes} {plain : Bytes}
    (h : Delivers fs (chunk :: chunks) plain) :
    chunk ≠ [] ∧ Delivers (fs.receive chunk) chunks plain := by
  obtain ⟨stream, hcuts, hplain⟩ := h
  obtain ⟨rest, rfl, hne, hrest⟩ := hcuts.cons
  refine ⟨hne, rest, hrest, ?_⟩
  rw [← hplain, FramedStream.receive_buf, FramedStream.receive_recv, crypt_append,
    List.append_assoc]

/-- Either the first frame is in the buffer, or the read waits. -/
theorem parse_frame {fs : FramedStream} {p : Packet} (hp : p.Framed) {more rest : Bytes}
    (h : fs.buf ++ more = writePacket p ++ rest) :
    (fs.parse = none ∧ fs.buf.length < (writePacket p).length) ∨
      ∃ after, fs.parse = some ({ fs with buf := after }, .packet p) ∧ after ++ more = rest := by
  rcases Nat.lt_or_ge fs.buf.length (writePacket p).length with hlt | hge
  · have hstart : fs.buf <+: writePacket p := by
      have hfront : fs.buf <+: writePacket p ++ rest := ⟨more, h⟩
      exact List.prefix_of_prefix_length_le hfront (List.prefix_append ..) hlt.le
    refine .inl ⟨?_, hlt⟩
    rw [FramedStream.parse, readPacket_part hp hstart hlt]
  · have hcut : fs.buf = writePacket p ++ fs.buf.drop (writePacket p).length := by
      have htake := congrArg (List.take (writePacket p).length) h
      rw [List.take_append_of_le_length hge, List.take_left] at htake
      conv_lhs => rw [← List.take_append_drop (writePacket p).length fs.buf, htake]
    have hread := readPacket_write hp (fs.buf.drop (writePacket p).length)
    rw [← hcut] at hread
    refine .inr ⟨fs.buf.drop (writePacket p).length, ?_, ?_⟩
    · rw [FramedStream.parse, hread]
    · have hdrop := congrArg (List.drop (writePacket p).length) h
      rwa [List.drop_append_of_le_length hge, List.drop_left] at hdrop

/-- The next read returns the next packet, however it is cut. -/
theorem Delivers.readFrom {fs : FramedStream} {chunks : List Bytes} {p : Packet} {rest : Bytes}
    (hp : p.Framed) (h : Delivers fs chunks (writePacket p ++ rest)) :
    ∃ after left, fs.readFrom chunks = (after, .packet p, left) ∧ after.send = fs.send ∧
      Delivers after left rest := by
  induction chunks generalizing fs with
  | nil =>
    obtain ⟨stream, hcuts, hplain⟩ := h
    rcases parse_frame hp hplain with ⟨-, hlt⟩ | ⟨after, hparse, hrest⟩
    · obtain rfl : [] = stream := hcuts.flatten
      rw [crypt_nil, List.append_nil] at hplain
      rw [hplain, List.length_append] at hlt
      omega
    · refine ⟨{ fs with buf := after }, [], ?_, rfl, stream, hcuts, hrest⟩
      rw [FramedStream.readFrom, hparse]
  | cons chunk chunks ih =>
    obtain ⟨stream, hcuts, hplain⟩ := id h
    rcases parse_frame hp hplain with ⟨hparse, -⟩ | ⟨after, hparse, hrest⟩
    · obtain ⟨hne, hnext⟩ := h.receive
      obtain ⟨after, left, hread, hsend, hleft⟩ := ih hnext
      refine ⟨after, left, ?_, ?_, hleft⟩
      · rw [FramedStream.readFrom, hparse]
        exact (if_neg hne).trans hread
      · rw [hsend, FramedStream.receive_send]
    · refine ⟨{ fs with buf := after }, chunk :: chunks, ?_, rfl, stream, hcuts, hrest⟩
      rw [FramedStream.readFrom, hparse]

/-! ## An end of a connection -/

section

variable (inflate : Bytes → Nat → Option Bytes)

/-- What `read_packet_unpacked` makes of what `read_packet` returns. -/
def unpacked : ReadResult → ReadResult
  | .packet p =>
    if p.protocol = PROT_PACKED then
      match decompress inflate p MAX_PACKET_SIZE with
      | .ok p => .packet p
      | .error e => .protocol e
    else .packet p
  | result => result

inductive EndOp where
  | write (p : Packet)
  /-- `read_packet`, or `read_packet_unpacked`. -/
  | read (unpack : Bool)
deriving DecidableEq

def asRead (unpack : Bool) (result : ReadResult) : ReadResult :=
  if unpack then unpacked inflate result else result

/-- What an end puts on the socket and what its reads return. -/
def FramedStream.session (fs : FramedStream) (chunks : List Bytes) :
    List EndOp → Bytes × List ReadResult
  | [] => ([], [])
  | .write p :: ops =>
    let (bytes, fs) := fs.encrypt (Proto.writePacket p)
    let (sent, got) := fs.session chunks ops
    (bytes ++ sent, got)
  | .read unpack :: ops =>
    let (fs, result, chunks) := fs.readFrom chunks
    let (sent, got) := fs.session chunks ops
    (sent, asRead inflate unpack result :: got)

/-- The packets that are written. -/
def written (ops : List EndOp) : List Packet :=
  ops.filterMap fun | .write p => some p | .read _ => none

/-- Which kind each of the reads is. -/
def readKinds (ops : List EndOp) : List Bool :=
  ops.filterMap fun | .write _ => none | .read unpack => some unpack

/-- The frames go out under the cipher one behind the other, and the reads return the packets that
    come in one after the other. -/
theorem session_eq {fs : FramedStream} {chunks : List Bytes} {ps : List Packet}
    (hps : ∀ p ∈ ps, p.Framed) (h : Delivers fs chunks (ps.flatMap writePacket)) {ops : List EndOp}
    (hreads : (readKinds ops).length ≤ ps.length) :
    fs.session inflate chunks ops =
      ((crypt fs.send ((written ops).flatMap writePacket)).1,
        List.zipWith (fun unpack p => asRead inflate unpack (.packet p)) (readKinds ops) ps) := by
  induction ops generalizing fs chunks ps with
  | nil => simp [FramedStream.session, written, readKinds]
  | cons op ops ih =>
    cases op with
    | write p =>
      have hnext : Delivers (fs.encrypt (writePacket p)).2 chunks (ps.flatMap writePacket) := by
        obtain ⟨stream, hcuts, hplain⟩ := h
        exact ⟨stream, hcuts, by rw [FramedStream.encrypt_buf, FramedStream.encrypt_recv, hplain]⟩
      have hkinds : readKinds (.write p :: ops) = readKinds ops := rfl
      have hwritten : written (.write p :: ops) = p :: written ops := rfl
      rw [hkinds] at hreads ⊢
      have hsession := ih hps hnext hreads
      simp only [FramedStream.session, hsession, hwritten, List.flatMap_cons, crypt_append,
        FramedStream.encrypt_fst, FramedStream.encrypt_send]
    | read unpack =>
      have hkinds : readKinds (.read unpack :: ops) = unpack :: readKinds ops := rfl
      have hwritten : written (.read unpack :: ops) = written ops := rfl
      rw [hkinds] at hreads ⊢
      cases ps with
      | nil => exact absurd hreads (Nat.not_succ_le_zero _)
      | cons p ps =>
        obtain ⟨hp, hrest⟩ := List.forall_mem_cons.mp hps
        obtain ⟨after, left, hread, hsend, hleft⟩ := Delivers.readFrom hp h
        rw [FramedStream.session, hread]
        simp only [ih hrest hleft (Nat.le_of_succ_le_succ hreads), hwritten, hsend,
          List.zipWith_cons_cons]

/-- A packet that was packed is read as its payload under its opcode. -/
theorem asRead_compress {deflate : Bytes → Bytes} (hzlib : ZlibRoundTrips deflate inflate)
    {p : Packet} (hp : p.Framed) (hprot : p.protocol ∉ [PROT_PACKED, PROT_KAD, PROT_ED2KV2]) :
    ∃ q, asRead inflate true (.packet (compress deflate p)) = .packet q ∧ q.opcode = p.opcode ∧
      q.payload = p.payload := by
  simp only [List.mem_cons, List.not_mem_nil, or_false, not_or] at hprot
  obtain ⟨hpacked, hkad, hv2⟩ := hprot
  rcases compress_eq deflate p with heq | ⟨-, heq⟩
  · exact ⟨p, by rw [heq]; exact if_neg hpacked, rfl, rfl⟩
  · obtain ⟨protocol, hunpacked⟩ := decompress_compress hzlib (p := p) hp.small
    refine ⟨⟨protocol, p.opcode, p.payload⟩, ?_, rfl, rfl⟩
    have hprotocol : packedProtocolFor p.protocol = PROT_PACKED := by
      rw [packedProtocolFor, if_neg hkad, if_neg hv2]
    rw [heq]
    refine (if_pos hprotocol).trans ?_
    rw [hunpacked]

end

end PadMule.Engine
