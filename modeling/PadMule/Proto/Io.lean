import PadMule.Lib.LittleEndian
import PadMule.Lib.Readers
import PadMule.Proto.Hash

/-
  `mule-proto/src/io.rs`: little-endian primitives. A `Reader` is the input left to
  read; a `write_*` function is the bytes it appends.
-/

namespace PadMule.Proto

open LittleEndian Readers

inductive IoError where
  | unexpectedEof
  | badTag (tag : UInt8)
  | badHeader (protocol : UInt8)
  | tooBig
  | decompress
deriving DecidableEq, Repr

abbrev Reader := Readers.Reader IoError UInt8

/-- `Reader::take`, and `read_bytes`: the next `n` bytes. -/
def readBytes (n : Nat) : Reader Bytes := fun r =>
  if n ≤ r.length then .ok (r.take n, r.drop n) else .error .unexpectedEof

def readU8 : Reader UInt8 := do return UInt8.ofNat (ofLE (← readBytes 1))

def readU16 : Reader UInt16 := do return UInt16.ofNat (ofLE (← readBytes 2))

def readU32 : Reader UInt32 := do return UInt32.ofNat (ofLE (← readBytes 4))

def readU64 : Reader UInt64 := do return UInt64.ofNat (ofLE (← readBytes 8))

/-- The next `n` bytes as `[u8; n]`. -/
def readDigest (n : Nat) : Reader (Digest n) := fun r =>
  if h : n ≤ r.length then .ok (⟨r.take n, by simp [h]⟩, r.drop n) else .error .unexpectedEof

/-- `read_string_u16`: a byte string behind a u16 length. -/
def readStringU16 : Reader Bytes := do readBytes (← readU16).toNat

def writeU8 (v : UInt8) : Bytes := toLE 1 v.toNat

def writeU16 (v : UInt16) : Bytes := toLE 2 v.toNat

def writeU32 (v : UInt32) : Bytes := toLE 4 v.toNat

def writeU64 (v : UInt64) : Bytes := toLE 8 v.toNat

/-- `write_string_u16`: capped at `u16::MAX`, so prefix and payload agree. -/
def writeStringU16 (b : Bytes) : Bytes :=
  let n := min b.length 65535
  writeU16 (UInt16.ofNat n) ++ b.take n

/-! ## Each reader inverts its writer -/

theorem reads_bytes (bs : Bytes) {n : Nat} (h : bs.length = n) : Reads (readBytes n) bs bs := by
  intro rest
  have hn : n ≤ (bs ++ rest).length := by simp; omega
  rw [readBytes, if_pos hn, ← h, List.take_left, List.drop_left]

theorem reads_digest {n : Nat} (d : Digest n) : Reads (readDigest n) d.bytes d := by
  intro rest
  have hlen : n ≤ (d.bytes ++ rest).length := by
    rw [List.length_append, d.len]
    omega
  rw [readDigest, dif_pos hlen, List.drop_left' d.len]
  exact congrArg (fun a => Except.ok (a, rest)) (Digest.ext_bytes (List.take_left' d.len))

/-- The common shape of the integer readers. -/
theorem reads_le {α : Type} (mk : Nat → α) {w n : Nat} (h : n < 256 ^ w) :
    Reads (do return mk (ofLE (← readBytes w)) : Reader α) (toLE w n) (mk n) := by
  have hr := (reads_bytes (toLE w n) (length_toLE w n)).bind_pure (f := fun b => mk (ofLE b))
  rwa [ofLE_toLE h] at hr

theorem reads_u8 (v : UInt8) : Reads readU8 (writeU8 v) v := by
  have h := reads_le UInt8.ofNat (show v.toNat < 256 ^ 1 from v.toNat_lt)
  rwa [UInt8.ofNat_toNat] at h

theorem reads_u16 (v : UInt16) : Reads readU16 (writeU16 v) v := by
  have h := reads_le UInt16.ofNat (show v.toNat < 256 ^ 2 from v.toNat_lt)
  rwa [UInt16.ofNat_toNat] at h

theorem reads_u32 (v : UInt32) : Reads readU32 (writeU32 v) v := by
  have h := reads_le UInt32.ofNat (show v.toNat < 256 ^ 4 from v.toNat_lt)
  rwa [UInt32.ofNat_toNat] at h

theorem reads_u64 (v : UInt64) : Reads readU64 (writeU64 v) v := by
  have h := reads_le UInt64.ofNat (show v.toNat < 256 ^ 8 from v.toNat_lt)
  rwa [UInt64.ofNat_toNat] at h

/-- A byte string round-trips up to the cap: what comes back is the written prefix. -/
theorem reads_stringU16 (b : Bytes) :
    Reads readStringU16 (writeStringU16 b) (b.take 65535) := by
  have hn : (UInt16.ofNat (min b.length 65535)).toNat = min b.length 65535 := by
    rw [UInt16.toNat_ofNat_of_lt' (by simp [UInt16.size])]
  have htake : b.take (min b.length 65535) = b.take 65535 := by
    rcases Nat.le_total b.length 65535 with h | h
    · rw [Nat.min_eq_left h, List.take_length, List.take_of_length_le h]
    · rw [Nat.min_eq_right h]
  unfold readStringU16 writeStringU16
  dsimp only
  rw [htake]
  refine (reads_u16 _).bind (reads_bytes _ ?_)
  rw [hn, List.length_take, Nat.min_comm]

theorem reads_stringU16_of_le {b : Bytes} (h : b.length ≤ 65535) :
    Reads readStringU16 (writeStringU16 b) b := by
  have hb := reads_stringU16 b
  rwa [List.take_of_length_le h] at hb

/-! ## What a reader returns -/

theorem length_of_readBytes {n : Nat} {s s' bs : Bytes} (h : readBytes n s = .ok (bs, s')) :
    bs.length = n := by
  unfold readBytes at h
  split at h
  · cases h
    exact List.length_take_of_le ‹_›
  · cases h

theorem takes_bytes (n : Nat) : Takes (readBytes n) n := by
  intro s bs s' h
  unfold readBytes at h
  split at h
  · cases h
    rw [List.length_drop]
    omega
  · cases h

theorem takes_u8 : Takes readU8 1 := (takes_bytes 1).bind_pure

theorem takes_u16 : Takes readU16 2 := (takes_bytes 2).bind_pure

theorem takes_u32 : Takes readU32 4 := (takes_bytes 4).bind_pure

theorem takes_digest (n : Nat) : Takes (readDigest n) n := by
  intro s d s' h
  unfold readDigest at h
  split at h
  · cases h
    rw [List.length_drop]
    omega
  · cases h

theorem length_of_readStringU16 {s s' bs : Bytes} (h : readStringU16 s = .ok (bs, s')) :
    bs.length ≤ 65535 := by
  obtain ⟨n, t, -, h⟩ := ok_bind h
  have hn : n.toNat < 2 ^ 16 := n.toNat_lt
  rw [length_of_readBytes h]
  omega

end PadMule.Proto
