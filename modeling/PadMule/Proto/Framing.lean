import PadMule.Lib.StreamCipher
import PadMule.Proto.Io
import PadMule.Proto.Packet

/-
  `mule-proto/src/packet.rs` and `rc4.rs`: packets as bytes on a stream, and the stream cipher of
  the obfuscation layer.
-/

namespace PadMule.Proto

open LittleEndian

def PROT_PACKED : UInt8 := 0xD4
def PROT_KAD : UInt8 := 0xE4
def PROT_KAD_PACKED : UInt8 := 0xE5
def PROT_ED2KV2 : UInt8 := 0xF4
def PROT_ED2KV2_PACKED : UInt8 := 0xF5

def MAX_PACKET_SIZE : Nat := 2000000

def HEADER_SIZE : Nat := 6

def isKnownProtocol (p : UInt8) : Bool :=
  p ∈ [PROT_EDONKEY, PROT_EMULE, PROT_PACKED, PROT_KAD, PROT_KAD_PACKED, PROT_ED2KV2,
    PROT_ED2KV2_PACKED]

/-- `protocol`, `packetlength`, `opcode`, payload. -/
def writePacket (p : Packet) : Bytes :=
  p.protocol :: writeU32 (.ofNat (1 + p.payload.length)) ++ p.opcode :: p.payload

/-- The packet at the front of `buf` and its size, or nothing while it is not all there. -/
def readPacket (buf : Bytes) : Except IoError (Option (Packet × Nat)) :=
  match buf with
  | protocol :: b1 :: b2 :: b3 :: b4 :: opcode :: rest =>
    let packetlength := ofLE [b1, b2, b3, b4]
    if !isKnownProtocol protocol then .error (.badHeader protocol)
    else if packetlength < 1 then .error (.badHeader protocol)
    else if MAX_PACKET_SIZE < packetlength - 1 then .error .tooBig
    else if rest.length < packetlength - 1 then .ok none
    else .ok (some (⟨protocol, opcode, rest.take (packetlength - 1)⟩,
      HEADER_SIZE + (packetlength - 1)))
  | _ => .ok none

theorem length_writePacket (p : Packet) :
    (writePacket p).length = HEADER_SIZE + p.payload.length := by
  simp [writePacket, HEADER_SIZE, writeU32]
  omega

/-- What is read off the front is the frame of the packet. -/
theorem readPacket_frame {buf : Bytes} {p : Packet} {n : Nat}
    (h : readPacket buf = .ok (some (p, n))) : buf = writePacket p ++ buf.drop n := by
  rw [readPacket.eq_def] at h
  split at h
  next protocol b1 b2 b3 b4 opcode rest =>
    dsimp only at h
    split_ifs at h with _ hpos hbig hshort
    · cases h
    obtain ⟨rfl, rfl⟩ := Prod.mk.inj (Option.some.inj (Except.ok.inj h))
    have hlt := ofLE_lt [b1, b2, b3, b4]
    generalize hlen : ofLE [b1, b2, b3, b4] = packetlength at *
    have htake : (rest.take (packetlength - 1)).length = packetlength - 1 :=
      List.length_take_of_le (by omega)
    -- the length field is the one that is written for this payload
    have hfield : writeU32 (.ofNat (1 + (rest.take (packetlength - 1)).length)) =
        [b1, b2, b3, b4] := by
      have hnat : (UInt32.ofNat (1 + (packetlength - 1))).toNat = packetlength := by
        rw [UInt32.toNat_ofNat']
        simp only [List.length_cons, List.length_nil] at hlt
        omega
      rw [htake, writeU32, hnat, ← hlen]
      exact toLE_ofLE [b1, b2, b3, b4]
    have hdrop : (protocol :: b1 :: b2 :: b3 :: b4 :: opcode :: rest).drop
        (HEADER_SIZE + (packetlength - 1)) = rest.drop (packetlength - 1) := by
      rw [← List.drop_drop]
      rfl
    rw [writePacket, hfield, hdrop]
    simp
  next => cases h

/-- A packet of a protocol that is known, within the size that is accepted. -/
structure Packet.Framed (p : Packet) : Prop where
  known : isKnownProtocol p.protocol = true
  small : p.payload.length ≤ MAX_PACKET_SIZE

instance (p : Packet) : Decidable p.Framed :=
  decidable_of_iff (isKnownProtocol p.protocol = true ∧ p.payload.length ≤ MAX_PACKET_SIZE)
    ⟨fun h => ⟨h.1, h.2⟩, fun h => ⟨h.1, h.2⟩⟩

/-- Behind a whole header the length field decides. -/
theorem readPacket_header {p : Packet} (hp : p.Framed) (rest : Bytes) :
    readPacket (p.protocol :: writeU32 (.ofNat (1 + p.payload.length)) ++ p.opcode :: rest) =
      if rest.length < p.payload.length then .ok none
      else .ok (some (⟨p.protocol, p.opcode, rest.take p.payload.length⟩,
        HEADER_SIZE + p.payload.length)) := by
  have hsmall := hp.small
  unfold MAX_PACKET_SIZE at hsmall
  have hnat : (UInt32.ofNat (1 + p.payload.length)).toNat = 1 + p.payload.length :=
    UInt32.toNat_ofNat_of_lt' (by unfold UInt32.size; omega)
  have hfield : ofLE (writeU32 (.ofNat (1 + p.payload.length))) = 1 + p.payload.length := by
    rw [writeU32, hnat, ofLE_toLE (by omega)]
  have hfour : (writeU32 (.ofNat (1 + p.payload.length))).length = 4 := length_toLE 4 _
  generalize writeU32 (.ofNat (1 + p.payload.length)) = field at hfield hfour
  obtain ⟨b1, b2, b3, b4, rfl⟩ := List.length_eq_four.mp hfour
  simp only [List.cons_append, List.nil_append, readPacket, hfield, Nat.add_sub_cancel_left,
    hp.known, Bool.not_true, Bool.false_eq_true, if_false]
  rw [if_neg (by omega), if_neg (by unfold MAX_PACKET_SIZE; omega)]

theorem readPacket_write {p : Packet} (hp : p.Framed) (rest : Bytes) :
    readPacket (writePacket p ++ rest) = .ok (some (p, (writePacket p).length)) := by
  rw [length_writePacket, writePacket, List.append_assoc, @List.cons_append _ _ p.payload,
    readPacket_header hp, if_neg (by simp), List.take_left]

/-- A frame that is not all there is waited for. -/
theorem readPacket_part {p : Packet} (hp : p.Framed) {buf : Bytes} (h : buf <+: writePacket p)
    (hlt : buf.length < (writePacket p).length) : readPacket buf = .ok none := by
  rw [length_writePacket] at hlt
  have hfour : (writeU32 (.ofNat (1 + p.payload.length))).length = 4 := length_toLE 4 _
  have htake := List.prefix_iff_eq_take.mp h
  rcases Nat.lt_or_ge buf.length HEADER_SIZE with hshort | hlong
  · -- no header: the match has no case for it
    unfold HEADER_SIZE at hshort
    rw [readPacket.eq_def]
    split
    · simp only [List.length_cons] at hshort
      omega
    · rfl
  · obtain ⟨n, hn⟩ := Nat.exists_eq_add_of_le hlong
    have hhead : (p.protocol :: writeU32 (.ofNat (1 + p.payload.length)) ++ [p.opcode]).length =
        HEADER_SIZE := by
      rw [List.length_append, List.length_cons, hfour]
      rfl
    have hbuf : buf = p.protocol :: writeU32 (.ofNat (1 + p.payload.length)) ++
        p.opcode :: p.payload.take n := by
      rw [htake, hn, writePacket, List.append_cons _ p.opcode p.payload, ← hhead,
        List.take_length_add_append, ← List.append_cons]
    rw [hbuf, readPacket_header hp, if_pos]
    rw [List.length_take]
    omega

/-- Textbook RC4, keyed. -/
structure Rc4 where
  s : Vector UInt8 256
  i : UInt8
  j : UInt8
deriving DecidableEq

/-- The key schedule: `j` runs over the table and the key. -/
def Rc4.new (key : Bytes) : Rc4 :=
  let k (i : Nat) : UInt8 := if key.isEmpty then 0 else key.getD (i % key.length) 0
  let start : Vector UInt8 256 × UInt8 := (.ofFn fun i => .ofNat i, 0)
  let keyed := (List.finRange 256).foldl (fun (s, j) i =>
    let j := j + s.get i + k i
    (s.swap i j.toNat i.isLt j.toNat_lt, j)) start
  ⟨keyed.1, 0, 0⟩

def Rc4.nextByte (c : Rc4) : UInt8 × Rc4 :=
  let i := c.i + 1
  let j := c.j + c.s.get ⟨i.toNat, i.toNat_lt⟩
  let s := c.s.swap i.toNat j.toNat i.toNat_lt j.toNat_lt
  let t := s.get ⟨i.toNat, i.toNat_lt⟩ + s.get ⟨j.toNat, j.toNat_lt⟩
  (s.get ⟨t.toNat, t.toNat_lt⟩, ⟨s, i, j⟩)

/-- Advance the keystream by `n` bytes without producing output. -/
def Rc4.discard (c : Rc4) : Nat → Rc4
  | 0 => c
  | n + 1 => c.nextByte.2.discard n

def Rc4.newDiscard (key : Bytes) (n : Nat) : Rc4 := (Rc4.new key).discard n

/-- Encrypts and decrypts. -/
def Rc4.apply (c : Rc4) (data : Bytes) : Bytes × Rc4 :=
  StreamCipher.apply Rc4.nextByte (fun k b => b ^^^ k) c data

/-- The cipher takes back what it did, from the state it did it in. -/
theorem Rc4.apply_apply (c : Rc4) (data : Bytes) : (c.apply (c.apply data).1).1 = data :=
  StreamCipher.apply_apply _ _
    (fun k b => by rw [UInt8.xor_assoc, UInt8.xor_self, UInt8.xor_zero]) c data

theorem Rc4.apply_apply_snd (c : Rc4) (data : Bytes) :
    (c.apply (c.apply data).1).2 = (c.apply data).2 :=
  StreamCipher.apply_apply_snd _ _ _ c data

theorem Rc4.apply_append (c : Rc4) (a b : Bytes) :
    c.apply (a ++ b) =
      ((c.apply a).1 ++ ((c.apply a).2.apply b).1, ((c.apply a).2.apply b).2) :=
  StreamCipher.apply_append _ _ c a b

theorem Rc4.length_apply (c : Rc4) (data : Bytes) : (c.apply data).1.length = data.length :=
  StreamCipher.length_apply _ _ c data

end PadMule.Proto
