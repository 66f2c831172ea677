import PadMule.Proto.Framing

/-
  `mule-proto/src/packet.rs`: zlib packing of payloads.

  `deflate data` is what the encoder makes of the data, and `inflate stream n` the first `n` bytes
  that the decoder makes of the stream, or nothing if it fails before. Only the payload is packed;
  the protocol byte tells. What comes back is the payload and the opcode (`decompress_compress`).
-/

namespace PadMule.Proto

variable (deflate : Bytes → Bytes) (inflate : Bytes → Nat → Option Bytes)

/-- What zlib is relied on for: the decoder gives back what was encoded, as far as it is read. -/
def ZlibRoundTrips : Prop := ∀ data n, inflate (deflate data) n = some (data.take n)

def packedProtocolFor (protocol : UInt8) : UInt8 :=
  if protocol = PROT_KAD then PROT_KAD_PACKED
  else if protocol = PROT_ED2KV2 then PROT_ED2KV2_PACKED
  else PROT_PACKED

/-- The packet stays as it is when packing does not make it smaller. -/
def compress (p : Packet) : Packet :=
  let compressed := deflate p.payload
  if compressed.length < p.payload.length then
    ⟨packedProtocolFor p.protocol, p.opcode, compressed⟩
  else p

def unpackedProtocol (protocol : UInt8) : Except IoError UInt8 :=
  if protocol = PROT_PACKED ∨ protocol = PROT_ED2KV2_PACKED then .ok PROT_EMULE
  else if protocol = PROT_KAD_PACKED then .ok PROT_KAD
  else .error (.badHeader protocol)

def decompress (p : Packet) (maxSize : Nat) : Except IoError Packet := do
  let protocol ← unpackedProtocol p.protocol
  match inflate p.payload (maxSize + 1) with
  | none => throw .decompress
  | some out => if maxSize < out.length then throw .tooBig else return ⟨protocol, p.opcode, out⟩

variable {deflate inflate}

variable (deflate) in
theorem compress_eq (p : Packet) : compress deflate p = p ∨
    (deflate p.payload).length < p.payload.length ∧
      compress deflate p = ⟨packedProtocolFor p.protocol, p.opcode, deflate p.payload⟩ := by
  rw [compress]
  split_ifs with hshrinks
  · exact .inr ⟨hshrinks, rfl⟩
  · exact .inl rfl

theorem Packet.Framed.compress {p : Packet} (h : p.Framed) : (compress deflate p).Framed := by
  rcases compress_eq deflate p with heq | ⟨hlt, heq⟩
  · rw [heq]
    exact h
  · rw [heq]
    refine ⟨?_, hlt.le.trans h.small⟩
    show isKnownProtocol (packedProtocolFor p.protocol) = true
    unfold packedProtocolFor
    split_ifs <;> decide

/-- A packed protocol is unpacked, though not always to the one it was. -/
theorem unpacked_packed (protocol : UInt8) :
    ∃ q, unpackedProtocol (packedProtocolFor protocol) = .ok q := by
  unfold packedProtocolFor
  split_ifs
  · exact ⟨PROT_KAD, rfl⟩
  · exact ⟨PROT_EMULE, rfl⟩
  · exact ⟨PROT_EMULE, rfl⟩

theorem decompress_compress (hzlib : ZlibRoundTrips deflate inflate) {p : Packet} {maxSize : Nat}
    (hsmall : p.payload.length ≤ maxSize) :
    ∃ q, decompress inflate ⟨packedProtocolFor p.protocol, p.opcode, deflate p.payload⟩ maxSize =
      .ok ⟨q, p.opcode, p.payload⟩ := by
  obtain ⟨q, hq⟩ := unpacked_packed p.protocol
  refine ⟨q, ?_⟩
  have hout : inflate (deflate p.payload) (maxSize + 1) = some p.payload := by
    rw [hzlib, List.take_of_length_le (by omega)]
  rw [decompress, hq]
  show (match inflate (deflate p.payload) (maxSize + 1) with
    | none => throw IoError.decompress
    | some out => if maxSize < out.length then throw IoError.tooBig
        else Except.ok (⟨q, p.opcode, out⟩ : Packet)) = _
  rw [hout]
  exact if_neg (by omega)

/-! ## A sample -/

/-- Sixty-four times the same byte. -/
def packable : Bytes := List.replicate 64 122

/-- The zlib stream of that, anything else behind a byte that no stream starts with. -/
def packedStream : Bytes := [120, 218, 171, 170, 162, 12, 0, 0, 223, 173, 30, 129]

def sampleDeflate (data : Bytes) : Bytes := if data = packable then packedStream else 0 :: data

def sampleInflate (stream : Bytes) (n : Nat) : Option Bytes :=
  if stream = packedStream then some (packable.take n)
  else match stream with
    | 0 :: data => some (data.take n)
    | _ => none

theorem sample_roundTrips : ZlibRoundTrips sampleDeflate sampleInflate := by
  intro data n
  by_cases hdata : data = packable
  · rw [sampleDeflate, if_pos hdata, hdata]
    exact if_pos rfl
  · have hstream : (0 :: data : Bytes) ≠ packedStream := fun heq => by
      have hhead := congrArg List.head? heq
      cases hhead
    rw [sampleDeflate, if_neg hdata]
    exact if_neg hstream

end PadMule.Proto
