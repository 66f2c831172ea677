import PadMule.Engine.TransferCodec
import PadMule.Lib.FileMap
import PadMule.Lib.Inflate

/-
  `BlockReceiver` of `mule-engine/src/transfer.rs`: reassembles the reply to the block
  requests of one session.

  `left` counts the bytes still expected of each block, keyed by the block's start; a
  block whose count reaches zero is completed, and its inflate state is dropped. Neither
  path looks at `left` before accepting: a completed block stays in `blocks`, a raw piece
  inside it is still accepted, and a compressed packet naming it starts a new stream.

  A call that panics is `none`; an error leaves the state the code leaves behind.
  `accept_cases` lists everything a packet can do.
-/

namespace PadMule.Engine

open PadMule.Proto Readers FileMap Inflate

def OP_COMPRESSEDPART : UInt8 := 0x40
def OP_COMPRESSEDPART_I64 : UInt8 := 0xA1

/-- `(start, end)`, the end exclusive. -/
abbrev Block := Nat × Nat

/-- Largest allocation: `Vec::with_capacity` panics beyond it. -/
def ISIZE_MAX : Nat := 2 ^ 63 - 1

/-- One range of the file to persist. -/
structure BlockWrite where
  offset : Nat
  data : Bytes
deriving DecidableEq

inductive BlockError where
  | wrongFile
  | badRange
  | decompress
  | truncated
deriving DecidableEq

structure PackedBlock (Z : Inflater) where
  decomp : Z.State
  out : Bytes
  written : Nat
  total : Nat

structure BlockReceiver (Z : Inflater) where
  hash : Hash16
  fileSize : Nat
  blocks : List Block
  /-- Bytes still expected, per block, keyed by start. -/
  left : Dir Nat Nat
  /-- Blocks that finished since the driver last asked, in completion order. -/
  completed : List Block
  packed : Dir Nat (PackedBlock Z)

variable {Z : Inflater}

namespace BlockReceiver

/-- Blocks keyed by start; of two with one start the later counts. `e - s` must not underflow. -/
def new (Z : Inflater) (hash : Hash16) (fileSize : Nat) (blocks : List Block) :
    Option (BlockReceiver Z) :=
  if ∀ b ∈ blocks, b.1 ≤ b.2 then
    some ⟨hash, fileSize, blocks, blocks.foldl (fun left b => write left b.1 (b.2 - b.1)) [], [], []⟩
  else none

def isDone (rx : BlockReceiver Z) : Bool := rx.left.isEmpty

def takeCompleted (rx : BlockReceiver Z) : List Block × BlockReceiver Z :=
  (rx.completed, { rx with completed := [] })

/-- Blocks still in flight. -/
def outstanding (rx : BlockReceiver Z) : List Block :=
  rx.blocks.filter fun b => (get rx.left b.1).isSome

def addBlock (rx : BlockReceiver Z) (b : Block) : BlockReceiver Z :=
  if b.1 < b.2 ∧ get rx.left b.1 = none then
    { rx with blocks := rx.blocks ++ [b], left := write rx.left b.1 (b.2 - b.1) }
  else rx

def addBlocks (rx : BlockReceiver Z) (blocks : List Block) : BlockReceiver Z :=
  blocks.foldl addBlock rx

/-- The first requested block with this start. -/
def blockAt (rx : BlockReceiver Z) (start : Nat) : Option Block :=
  rx.blocks.find? fun b => b.1 == start

/-- The first requested block that fully contains `[start, stop)`. -/
def containingBlock (rx : BlockReceiver Z) (start stop : Nat) : Option Block :=
  rx.blocks.find? fun b => decide (b.1 ≤ start ∧ stop ≤ b.2)

/-- Credit `n` bytes to the block starting at `start`; its last byte completes it. -/
def credit (rx : BlockReceiver Z) (start n : Nat) : BlockReceiver Z :=
  match get rx.left start with
  | none => rx
  | some rem =>
    if rem - n = 0 then
      { rx with
        left := remove rx.left start
        packed := remove rx.packed start
        completed := rx.completed ++ (rx.blockAt start).toList }
    else { rx with left := write rx.left start (rem - n) }

/-- `impl From<IoError> for BlockError`. -/
def orTruncated {α : Type} (m : Reader α) : Readers.Reader BlockError UInt8 α := fun s =>
  (m s).mapError fun _ => .truncated

def checkHash (hash : Hash16) : Readers.Reader BlockError UInt8 Unit := do
  if (← orTruncated readHash16) ≠ hash then throw .wrongFile

def readRaw (hash : Hash16) (i64 : Bool) : Readers.Reader BlockError UInt8 (Nat × Nat × Bytes) := do
  checkHash hash
  let start ← orTruncated (readOffset i64)
  let stop ← orTruncated (readOffset i64)
  let data ← orTruncated readRest
  return (start.toNat, stop.toNat, data)

def readPacked (hash : Hash16) (i64 : Bool) : Readers.Reader BlockError UInt8 (Nat × Bytes) := do
  checkHash hash
  let start ← orTruncated (readOffset i64)
  let _declared ← orTruncated readU32
  let frag ← orTruncated readRest
  return (start.toNat, frag)

abbrev Outcome := Except BlockError (List BlockWrite)

/-- `accept_raw` behind its reads: the range must lie in a requested block, whose start is
    credited. -/
def placeRaw (rx : BlockReceiver Z) (start stop : Nat) (data : Bytes) :
    Outcome × BlockReceiver Z :=
  if stop ≤ start ∨ rx.fileSize < stop ∨ data.length ≠ stop - start then (.error .badRange, rx)
  else
    match rx.containingBlock start stop with
    | none => (.error .badRange, rx)
    | some owner => (.ok [⟨start, data⟩], rx.credit owner.1 data.length)

def acceptRaw (rx : BlockReceiver Z) (payload : Bytes) (i64 : Bool) : Outcome × BlockReceiver Z :=
  match readRaw rx.hash i64 payload with
  | .error e => (.error e, rx)
  | .ok ((start, stop, data), _) => rx.placeRaw start stop data

/-- `packed.entry(start).or_insert_with(..)`; a new buffer reserves the block's size. -/
def packedEntry (rx : BlockReceiver Z) (start total : Nat) : Option (PackedBlock Z) :=
  match get rx.packed start with
  | some pb => some pb
  | none => if total ≤ ISIZE_MAX then some ⟨Z.new, [], 0, total⟩ else none

/-- `decompress_vec`: `out` has the spare capacity the total leaves. -/
def inflate (pb : PackedBlock Z) (frag : Bytes) : Inflated Z.State :=
  Z.inflate pb.decomp frag (pb.total - pb.out.length)

/-- The entry once the decompressor has run, whatever it returned. -/
def grown (pb : PackedBlock Z) (frag : Bytes) : PackedBlock Z :=
  { pb with decomp := (inflate pb frag).state, out := pb.out ++ (inflate pb frag).output }

/-- The entry once its output is handed on. -/
def advanced (pb : PackedBlock Z) (frag : Bytes) : PackedBlock Z :=
  { grown pb frag with written := pb.written + (inflate pb frag).output.length }

def store (rx : BlockReceiver Z) (start : Nat) (pb : PackedBlock Z) : BlockReceiver Z :=
  { rx with packed := write rx.packed start pb }

/-- `accept_packed` from `decompress_vec` on. -/
def inflateInto (rx : BlockReceiver Z) (start : Nat) (pb : PackedBlock Z) (frag : Bytes) :
    Outcome × BlockReceiver Z :=
  let r := inflate pb frag
  let kept := rx.store start (grown pb frag)
  if r.status = .error then (.error .decompress, kept)
  else if (grown pb frag).out.length = pb.total ∧ r.consumed < frag.length then
    (.error .decompress, kept)
  else if r.status = .streamEnd ∧ pb.written + r.output.length ≠ pb.total then
    (.error .decompress, kept)
  else if r.output.length = 0 then (.ok [], kept)
  else
    (.ok [⟨start + pb.written, r.output⟩],
      (rx.store start (advanced pb frag)).credit start r.output.length)

/-- `accept_packed` behind its reads: the fragment goes to the block with this start. -/
def placePacked (rx : BlockReceiver Z) (start : Nat) (frag : Bytes) :
    Option (Outcome × BlockReceiver Z) :=
  if frag = [] then some (.error .badRange, rx)
  else
    match rx.blockAt start with
    | none => some (.error .badRange, rx)
    | some b =>
      if b.2 < b.1 then none -- `e - s` underflows
      else (rx.packedEntry start (b.2 - b.1)).map fun pb => rx.inflateInto start pb frag

def acceptPacked (rx : BlockReceiver Z) (payload : Bytes) (i64 : Bool) :
    Option (Outcome × BlockReceiver Z) :=
  match readPacked rx.hash i64 payload with
  | .error e => some (.error e, rx)
  | .ok ((start, frag), _) => rx.placePacked start frag

/-- Feed one received packet. -/
def accept (rx : BlockReceiver Z) (opcode : UInt8) (payload : Bytes) :
    Option (Outcome × BlockReceiver Z) :=
  if opcode = OP_SENDINGPART then some (rx.acceptRaw payload false)
  else if opcode = OP_SENDINGPART_I64 then some (rx.acceptRaw payload true)
  else if opcode = OP_COMPRESSEDPART then rx.acceptPacked payload false
  else if opcode = OP_COMPRESSEDPART_I64 then rx.acceptPacked payload true
  else some (.ok [], rx)

/-! ## What a packet can do -/

/-- What a packet says once its fields are read. -/
inductive Content where
  | other
  | unreadable (e : BlockError)
  | raw (start stop : Nat) (data : Bytes)
  | packed (start : Nat) (frag : Bytes)

def rawContent (hash : Hash16) (i64 : Bool) (payload : Bytes) : Content :=
  match readRaw hash i64 payload with
  | .error e => .unreadable e
  | .ok ((start, stop, data), _) => .raw start stop data

def packedContent (hash : Hash16) (i64 : Bool) (payload : Bytes) : Content :=
  match readPacked hash i64 payload with
  | .error e => .unreadable e
  | .ok ((start, frag), _) => .packed start frag

def content (hash : Hash16) (opcode : UInt8) (payload : Bytes) : Content :=
  if opcode = OP_SENDINGPART then rawContent hash false payload
  else if opcode = OP_SENDINGPART_I64 then rawContent hash true payload
  else if opcode = OP_COMPRESSEDPART then packedContent hash false payload
  else if opcode = OP_COMPRESSEDPART_I64 then packedContent hash true payload
  else .other

def place (rx : BlockReceiver Z) : Content → Option (Outcome × BlockReceiver Z)
  | .other => some (.ok [], rx)
  | .unreadable e => some (.error e, rx)
  | .raw start stop data => some (rx.placeRaw start stop data)
  | .packed start frag => rx.placePacked start frag

theorem acceptRaw_eq (rx : BlockReceiver Z) (payload : Bytes) (i64 : Bool) :
    some (rx.acceptRaw payload i64) = rx.place (rawContent rx.hash i64 payload) := by
  unfold acceptRaw rawContent
  split <;> rfl

theorem acceptPacked_eq (rx : BlockReceiver Z) (payload : Bytes) (i64 : Bool) :
    rx.acceptPacked payload i64 = rx.place (packedContent rx.hash i64 payload) := by
  unfold acceptPacked packedContent
  split <;> rfl

/-- `accept` reads the packet, then places its content. -/
theorem accept_eq (rx : BlockReceiver Z) (opcode : UInt8) (payload : Bytes) :
    rx.accept opcode payload = rx.place (content rx.hash opcode payload) := by
  unfold accept content
  split_ifs
  · exact acceptRaw_eq rx payload false
  · exact acceptRaw_eq rx payload true
  · exact acceptPacked_eq rx payload false
  · exact acceptPacked_eq rx payload true
  · rfl

/-- The entry a fragment is decompressed into, and the block it is for. -/
structure Feeds (rx : BlockReceiver Z) (start : Nat) (frag : Bytes) (b : Block)
    (pb : PackedBlock Z) : Prop where
  frag_ne : frag ≠ []
  blockAt : rx.blockAt start = some b
  le : b.1 ≤ b.2
  entry : rx.packedEntry start (b.2 - b.1) = some pb

/-- Everything a packet can do to the receiver. -/
inductive Effect (rx : BlockReceiver Z) : Content → Outcome → BlockReceiver Z → Prop where
  | ignored : Effect rx .other (.ok []) rx
  | refused (c : Content) (e : BlockError) : Effect rx c (.error e) rx
  | raw {start stop : Nat} {data : Bytes} {owner : Block} (hlt : start < stop)
      (heof : stop ≤ rx.fileSize) (hlen : data.length = stop - start)
      (howner : rx.containingBlock start stop = some owner) :
      Effect rx (.raw start stop data) (.ok [⟨start, data⟩]) (rx.credit owner.1 data.length)
  | spoiled {start : Nat} {frag : Bytes} {b : Block} {pb : PackedBlock Z}
      (h : Feeds rx start frag b pb) :
      Effect rx (.packed start frag) (.error .decompress) (rx.store start (grown pb frag))
  | silent {start : Nat} {frag : Bytes} {b : Block} {pb : PackedBlock Z}
      (h : Feeds rx start frag b pb) (hok : (inflate pb frag).status ≠ .error)
      (hfull : (grown pb frag).out.length = pb.total → (inflate pb frag).consumed = frag.length)
      (hend : (inflate pb frag).status = .streamEnd → pb.written = pb.total)
      (hout : (inflate pb frag).output = []) :
      Effect rx (.packed start frag) (.ok []) (rx.store start (grown pb frag))
  | inflated {start : Nat} {frag : Bytes} {b : Block} {pb : PackedBlock Z}
      (h : Feeds rx start frag b pb) (hne : (inflate pb frag).output ≠ []) :
      Effect rx (.packed start frag) (.ok [⟨start + pb.written, (inflate pb frag).output⟩])
        ((rx.store start (advanced pb frag)).credit start (inflate pb frag).output.length)

theorem inflateInto_effect {rx : BlockReceiver Z} {start : Nat} {frag : Bytes} {b : Block}
    {pb : PackedBlock Z} (h : Feeds rx start frag b pb) :
    Effect rx (.packed start frag) (rx.inflateInto start pb frag).1
      (rx.inflateInto start pb frag).2 := by
  unfold inflateInto
  dsimp only
  split_ifs with herr hfull hend hzero
  · exact .spoiled h
  · exact .spoiled h
  · exact .spoiled h
  · refine .silent h herr (fun hlen => ?_) (fun hs => ?_) (List.length_eq_zero_iff.mp hzero)
    · by_contra hne
      exact hfull ⟨hlen, lt_of_le_of_ne (Z.consumed_le ..) hne⟩
    · by_contra hne
      exact hend ⟨hs, by rw [hzero]; exact hne⟩
  · exact .inflated h fun hnil => hzero (by rw [hnil]; rfl)

theorem place_effect {rx rx' : BlockReceiver Z} {c : Content} {out : Outcome}
    (h : rx.place c = some (out, rx')) : Effect rx c out rx' := by
  cases c with
  | other => cases h; exact .ignored
  | unreadable e => cases h; exact .refused _ e
  | raw start stop data =>
    rw [place, Option.some.injEq] at h
    unfold placeRaw at h
    split at h
    · cases h
      exact .refused _ _
    · rename_i hguard
      rw [not_or, not_or, Nat.not_le, Nat.not_lt, not_not] at hguard
      split at h
      · cases h
        exact .refused _ _
      · rename_i owner howner
        cases h
        exact .raw hguard.1 hguard.2.1 hguard.2.2 howner
  | packed start frag =>
    rw [place] at h
    unfold placePacked at h
    split at h
    · cases h
      exact .refused _ _
    · rename_i hne
      split at h
      · cases h
        exact .refused _ _
      · rename_i b hb
        split at h
        · cases h
        · rename_i hle
          obtain ⟨pb, hpb, hres⟩ := Option.map_eq_some_iff.mp h
          have heff := inflateInto_effect ⟨hne, hb, Nat.not_lt.mp hle, hpb⟩
          rwa [hres] at heff

/-! ## Packets an uploader builds -/

def rawOpcode (i64 : Bool) : UInt8 := if i64 then OP_SENDINGPART_I64 else OP_SENDINGPART

def rawPayload (hash : Hash16) (i64 : Bool) (start stop : UInt64) (data : Bytes) : Bytes :=
  hash.bytes ++ (writeOffset i64 start ++ (writeOffset i64 stop ++ data))

def packedOpcode (i64 : Bool) : UInt8 := if i64 then OP_COMPRESSEDPART_I64 else OP_COMPRESSEDPART

def packedPayload (hash : Hash16) (i64 : Bool) (start : UInt64) (declared : UInt32)
    (frag : Bytes) : Bytes :=
  hash.bytes ++ (writeOffset i64 start ++ (writeU32 declared ++ frag))

theorem reads_orTruncated {α : Type} {m : Reader α} {bs : Bytes} {a : α} (h : Reads m bs a) :
    Reads (orTruncated m) bs a := by
  intro rest
  rw [orTruncated, h]
  rfl

theorem reads_checkHash (hash : Hash16) : Reads (checkHash hash) hash.bytes () := by
  intro rest
  rw [checkHash, bind_ok (reads_orTruncated (reads_hash16 hash) rest), if_neg (not_not.mpr rfl)]
  rfl

theorem orTruncated_rest (data : Bytes) : orTruncated readRest data = .ok (data, []) := by
  rw [orTruncated, reads_rest]
  rfl

theorem content_rawPayload (hash : Hash16) {i64 : Bool} {start stop : UInt64} (data : Bytes)
    (hfits : i64 = false → start ≤ U32_MAX ∧ stop ≤ U32_MAX) :
    content hash (rawOpcode i64) (rawPayload hash i64 start stop data) =
      .raw start.toNat stop.toNat data := by
  have hread : readRaw hash i64 (rawPayload hash i64 start stop data) =
      .ok ((start.toNat, stop.toNat, data), []) := by
    rw [readRaw, rawPayload, bind_ok (reads_checkHash hash _),
      bind_ok (reads_orTruncated (reads_offset fun h => (hfits h).1) _),
      bind_ok (reads_orTruncated (reads_offset fun h => (hfits h).2) _),
      bind_ok (orTruncated_rest data)]
    rfl
  have hcontent : content hash (rawOpcode i64) (rawPayload hash i64 start stop data) =
      rawContent hash i64 (rawPayload hash i64 start stop data) := by
    cases i64 <;> rfl
  rw [hcontent, rawContent, hread]

theorem content_packedPayload (hash : Hash16) {i64 : Bool} {start : UInt64} (declared : UInt32)
    (frag : Bytes) (hfits : i64 = false → start ≤ U32_MAX) :
    content hash (packedOpcode i64) (packedPayload hash i64 start declared frag) =
      .packed start.toNat frag := by
  have hread : readPacked hash i64 (packedPayload hash i64 start declared frag) =
      .ok ((start.toNat, frag), []) := by
    rw [readPacked, packedPayload, bind_ok (reads_checkHash hash _),
      bind_ok (reads_orTruncated (reads_offset hfits) _),
      bind_ok (reads_orTruncated (reads_u32 declared) _), bind_ok (orTruncated_rest frag)]
    rfl
  have hcontent : content hash (packedOpcode i64) (packedPayload hash i64 start declared frag) =
      packedContent hash i64 (packedPayload hash i64 start declared frag) := by
    cases i64 <;> rfl
  rw [hcontent, packedContent, hread]

/-- A packet that names another file's hash is refused, or is no data packet at all. -/
theorem content_of_other_hash {hash other : Hash16} {payload rest : Bytes}
    (hread : readHash16 payload = .ok (other, rest)) (hne : other ≠ hash) (opcode : UInt8) :
    content hash opcode payload = .unreadable .wrongFile ∨ content hash opcode payload = .other := by
  have hcheck : checkHash hash payload = .error .wrongFile := by
    have hor : orTruncated readHash16 payload = .ok (other, rest) := by
      rw [orTruncated, hread]
      rfl
    rw [checkHash, bind_ok hor, if_pos hne]
    rfl
  have hraw : ∀ i64, rawContent hash i64 payload = .unreadable .wrongFile := by
    intro i64
    have : readRaw hash i64 payload = .error .wrongFile := by
      rw [readRaw, bind_error hcheck]
    rw [rawContent, this]
  have hpacked : ∀ i64, packedContent hash i64 payload = .unreadable .wrongFile := by
    intro i64
    have : readPacked hash i64 payload = .error .wrongFile := by
      rw [readPacked, bind_error hcheck]
    rw [packedContent, this]
  unfold content
  split_ifs
  · exact .inl (hraw false)
  · exact .inl (hraw true)
  · exact .inl (hpacked false)
  · exact .inl (hpacked true)
  · exact .inr rfl

end BlockReceiver

end PadMule.Engine
