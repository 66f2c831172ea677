import PadMule.Engine.PartFile
import PadMule.Lib.CommaList

/-
  `mule-engine/src/part_store.rs`: one download and its `.part.met`.

  A `PartStore` is what the program holds in memory; the bytes behind its file handle
  are passed separately. `metOf` is the part.met a store is saved as, `ofPartMet` what
  `open` makes of one, `MetDir` the three files a save touches.

  A save writes two things it does not bound: the corrupted-part list goes into a
  string with a u16 length, the tags are counted in a u32. `open_saveMet_iff` says that
  these two limits are exactly what stands between a reachable store and its resume.
-/

namespace PadMule.Engine

open Spans Files PadMule.Proto

def FT_FILENAME : UInt8 := 0x01
def FT_FILESIZE : UInt8 := 0x02
def FT_CORRUPTEDPARTS : UInt8 := 0x24
def FT_DLPRIORITY : UInt8 := 0x18
def FT_OLDDLPRIORITY : UInt8 := 0x13
def FT_STATUS : UInt8 := 0x14

def PR_LOW : UInt8 := 0
def PR_NORMAL : UInt8 := 1
def PR_HIGH : UInt8 := 2
def PR_AUTO : UInt8 := 5

structure PartStore where
  pf : PartFile
  name : Bytes
  priority : UInt8
  paused : Bool
deriving DecidableEq

/-! ## The data file -/

/-- `write_all_at`: a write past the end fills the hole with zeros. -/
def writeAllAt (file : Bytes) (start : Nat) (data : Bytes) : Bytes :=
  (file ++ List.replicate (start - file.length) 0).take start ++ data ++
    file.drop (start + data.length)

namespace PartStore

/-- The store `PartStore::create` starts with; the data file is `size` zero bytes. -/
def create (hash : Hash16) (size : UInt64) (name : Bytes) : PartStore :=
  { pf := PartFile.new hash size.toNat, name, priority := PR_NORMAL, paused := false }

/-- `write_block`: bytes first, then the gap. A block past the end is refused. -/
def writeBlock (s : PartStore) (file : Bytes) (start : Nat) (data : Bytes) : PartStore × Bytes :=
  if data = [] then (s, file)
  else if s.pf.size < start + data.length then (s, file)
  else ({ s with pf := s.pf.fillGap start (start + data.length) }, writeAllAt file start data)

/-- `read_part`: a short file is an error. -/
def readPart (s : PartStore) (file : Bytes) (part : Nat) : Option Bytes :=
  let start := part * PARTSIZE
  let len := partSize part s.pf.size
  if start + len ≤ file.length then some ((file.drop start).take len) else none

/-- `PartFile::verify_part`: `none` while there is no hash to check against. -/
def verifyHash (md4 : Bytes → Hash16) (s : PartStore) (part : Nat) (data : Bytes) : Option Bool :=
  let usePartHash := dataPartCount s.pf.size > 1 ∨ s.pf.size = PARTSIZE
  let expected := if usePartHash then s.pf.partHashes[part]? else some s.pf.hash
  expected.map fun e => md4 data = e

/-- Clear a part that verified, re-open one that did not. -/
def applyVerdict (s : PartStore) (part : Nat) : Option Bool → PartStore
  | some true => { s with pf := s.pf.clearCorrupt part }
  | some false => { s with pf := s.pf.markCorrupt part }
  | none => s

/-- `verify_part`; a read error or a missing hash changes nothing. -/
def verifyPart (md4 : Bytes → Hash16) (s : PartStore) (file : Bytes) (part : Nat) : PartStore :=
  s.applyVerdict part ((s.readPart file part).bind (s.verifyHash md4 part))

/-! ## The part.met of a store -/

/-- 64-bit encodings past `OLD_MAX_FILE_SIZE`. -/
def large (s : PartStore) : Bool := OLD_MAX_FILE_SIZE < s.pf.size

/-- The tags in front of the gap list. -/
def baseTags (s : PartStore) : List Tag :=
  [Tag.ofId FT_FILENAME (.str s.name), Tag.ofId FT_FILESIZE (gapValue s.large s.pf.size)] ++
    (if s.pf.corrupted = [] then []
      else [Tag.ofId FT_CORRUPTEDPARTS (.str (CommaList.format s.pf.corrupted))]) ++
    [Tag.ofId FT_DLPRIORITY (.u32 s.priority.toUInt32),
      Tag.ofId FT_OLDDLPRIORITY (.u32 s.priority.toUInt32)] ++
    (if s.paused then [Tag.ofId FT_STATUS (.u32 1)] else [])

/-- The part.met `save_met` writes. -/
def metOf (s : PartStore) : PartMet where
  version := if s.large then PARTFILE_VERSION_LARGEFILE else PARTFILE_VERSION
  date := 0
  fileHash := s.pf.hash
  partHashes := s.pf.partHashes
  tags := s.baseTags ++ gapTags s.pf.gaps s.large

end PartStore

/-! ## Reading a store from a part.met -/

def findTag (id : UInt8) (tags : List Tag) : Option Tag := tags.find? fun t => t.name = .id id

/-- An integer tag of at most 32 bits. -/
def narrowInt : TagValue → Option Nat
  | .u8 v => some v.toNat
  | .u16 v => some v.toNat
  | .u32 v => some v.toNat
  | _ => none

def strValue : TagValue → Option Bytes
  | .str s => some s
  | _ => none

def metSize (tags : List Tag) : Option Nat := (findTag FT_FILESIZE tags).bind fun t => tagU64 t.value

def metName (tags : List Tag) : Bytes :=
  ((findTag FT_FILENAME tags).bind fun t => strValue t.value).getD []

def metCorrupted (tags : List Tag) : List Nat :=
  ((findTag FT_CORRUPTEDPARTS tags).bind fun t =>
    (strValue t.value).map (CommaList.parse (2 ^ 64))).getD []

/-- AUTO collapses to HIGH, anything unknown to NORMAL. -/
def clampPriority (v : UInt8) : UInt8 :=
  if v = PR_LOW then PR_LOW else if v = PR_HIGH ∨ v = PR_AUTO then PR_HIGH else PR_NORMAL

/-- The first of the modern and the legacy tag. -/
def metPriority (tags : List Tag) : UInt8 :=
  ((tags.find? fun t => t.name = .id FT_DLPRIORITY ∨ t.name = .id FT_OLDDLPRIORITY).bind fun t =>
    (narrowInt t.value).map fun v => clampPriority (UInt8.ofNat v)).getD PR_NORMAL

def metPaused (tags : List Tag) : Bool :=
  ((findTag FT_STATUS tags).bind fun t => (narrowInt t.value).map fun v => decide (v ≠ 0)).getD false

inductive OpenError where
  | notFound
  | invalidData (e : IoError)
  | noFilesize
deriving DecidableEq

/-- The store `PartStore::open` builds from the part.met it selected. -/
def ofPartMet (met : PartMet) : Except OpenError PartStore :=
  match metSize met.tags with
  | none => .error .noFilesize
  | some size =>
    let pf := PartFile.resume met.fileHash size (gaps met) (metCorrupted met.tags)
    .ok { pf := { pf with partHashes := met.partHashes }
          name := metName met.tags
          priority := metPriority met.tags
          paused := metPaused met.tags }

/-- The met files of one download. -/
structure MetDir where
  live : Option Bytes
  tmp : Option Bytes
  bak : Option Bytes
deriving DecidableEq

/-- `open`'s choice: the live met if it is there and parses, else the `.bak`. -/
def selectMet (d : MetDir) : Except OpenError PartMet :=
  match d.live.bind fun b => (readPartMet b).toOption with
  | some met => .ok met
  | none =>
    match d.bak with
    | none => .error .notFound
    | some b => (readPartMet b).mapError OpenError.invalidData

/-- `PartStore::open`; the data file has to be there. -/
def openStore (d : MetDir) (part : Option Bytes) : Except OpenError PartStore := do
  let met ← selectMet d
  let s ← ofPartMet met
  if part.isNone then throw .notFound
  return s

/-- One file operation of a save. -/
inductive MetOp where
  | writeTmp (bytes : Bytes)
  | promote -- rename the live met to the `.bak`; best effort, a first save has none
  | install -- rename the temporary file to the live met

def MetOp.apply : MetOp → MetDir → MetDir
  | writeTmp bytes, d => { d with tmp := some bytes }
  | promote, d => if d.live.isSome then { d with live := none, bak := d.live } else d
  | install, d => if d.tmp.isSome then { d with tmp := none, live := d.tmp } else d

/-- The file operations of `save_met`, in order. -/
def saveOps (s : PartStore) : List MetOp := [.writeTmp (writePartMet s.metOf), .promote, .install]

/-- `save_met`. -/
def saveMet (s : PartStore) (d : MetDir) : MetDir := (saveOps s).foldl (fun d op => op.apply d) d

/-! ## The stores the program reaches -/

inductive StoreOp where
  | writeBlock (start : Nat) (data : Bytes)
  | verifyPart (part : Nat)
  | markCorrupt (part : Nat)
  | reopenRange (start stop : Nat)
  | resetAllGaps
  | setPartHashes (hashes : List Hash16)
  | setPriority (priority : UInt8)
  | setPaused (on : Bool)

/-- Parts are data parts of the file, priorities the three the program offers. -/
def StoreOp.Valid (size : Nat) : StoreOp → Prop
  | verifyPart p | markCorrupt p => p < dataPartCount size
  | setPriority p => p = PR_LOW ∨ p = PR_NORMAL ∨ p = PR_HIGH
  | _ => True

def StoreOp.apply (md4 : Bytes → Hash16) (s : PartStore) (file : Bytes) :
    StoreOp → PartStore × Bytes
  | writeBlock start data => s.writeBlock file start data
  | verifyPart p => (s.verifyPart md4 file p, file)
  | markCorrupt p => ({ s with pf := s.pf.markCorrupt p }, file)
  | reopenRange a b => ({ s with pf := s.pf.reopenRange a b }, file)
  | resetAllGaps => ({ s with pf := s.pf.resetAllGaps }, file)
  | setPartHashes hs => ({ s with pf := { s.pf with partHashes := hs } }, file)
  | setPriority p => ({ s with priority := p }, file)
  | setPaused on => ({ s with paused := on }, file)

/-- A store and its data file after `create` and any number of operations. -/
inductive Reachable (md4 : Bytes → Hash16) : PartStore → Bytes → Prop where
  | create (hash : Hash16) (size : UInt64) (name : Bytes) :
    Reachable md4 (PartStore.create hash size name) (List.replicate size.toNat 0)
  | step {s : PartStore} {file : Bytes} (op : StoreOp) :
    Reachable md4 s file → op.Valid s.pf.size →
      Reachable md4 (op.apply md4 s file).1 (op.apply md4 s file).2

/-- A well-formed gap list in a file of u64 size. -/
structure PartStore.GapsOk (s : PartStore) : Prop where
  pf : s.pf.Ok
  size_lt : s.pf.size < 2 ^ 64

/-- What every operation preserves. -/
structure PartStore.Ok (s : PartStore) : Prop extends PartStore.GapsOk s where
  corrupted_lt : ∀ p ∈ s.pf.corrupted, p < dataPartCount s.pf.size
  priority : s.priority = PR_LOW ∨ s.priority = PR_NORMAL ∨ s.priority = PR_HIGH

theorem corrupted_fillGap (pf : PartFile) (a b : Nat) : (pf.fillGap a b).corrupted = pf.corrupted := by
  unfold PartFile.fillGap
  split <;> rfl

theorem corrupted_reopenRange (pf : PartFile) (a b : Nat) :
    (pf.reopenRange a b).corrupted = pf.corrupted := by
  unfold PartFile.reopenRange
  split <;> rfl

theorem corrupted_markCorrupt (pf : PartFile) (p : Nat) :
    (pf.markCorrupt p).corrupted =
      if p ∈ pf.corrupted then pf.corrupted else pf.corrupted ++ [p] := by
  unfold PartFile.markCorrupt
  dsimp only [PartFile.normalize]
  split <;> rfl

theorem corrupted_lt_markCorrupt {pf : PartFile} {p : Nat} (hp : p < dataPartCount pf.size)
    (h : ∀ q ∈ pf.corrupted, q < dataPartCount pf.size) :
    ∀ q ∈ (pf.markCorrupt p).corrupted, q < dataPartCount pf.size := by
  rw [corrupted_markCorrupt]
  intro q hq
  split at hq
  · exact h q hq
  · rcases List.mem_append.mp hq with hq | hq
    · exact h q hq
    · rwa [List.mem_singleton.mp hq]

theorem PartStore.Ok.markCorrupt {s : PartStore} (h : s.Ok) {p : Nat}
    (hp : p < dataPartCount s.pf.size) : ({ s with pf := s.pf.markCorrupt p } : PartStore).Ok where
  pf := PartFile.ok_markCorrupt s.pf p
  size_lt := by simpa using h.size_lt
  corrupted_lt := by simpa using corrupted_lt_markCorrupt hp h.corrupted_lt
  priority := h.priority

theorem PartStore.Ok.clearCorrupt {s : PartStore} (h : s.Ok) (p : Nat) :
    ({ s with pf := s.pf.clearCorrupt p } : PartStore).Ok where
  pf := ⟨h.pf.tidy, h.pf.stop_le⟩
  size_lt := h.size_lt
  corrupted_lt := fun q hq => h.corrupted_lt q (List.mem_filter.mp hq).1
  priority := h.priority

theorem PartStore.Ok.fillGap {s : PartStore} (h : s.Ok) (a b : Nat) :
    ({ s with pf := s.pf.fillGap a b } : PartStore).Ok where
  pf := h.pf.fillGap a b
  size_lt := by simpa using h.size_lt
  corrupted_lt := by simpa [corrupted_fillGap] using h.corrupted_lt
  priority := h.priority

theorem PartStore.Ok.reopenRange {s : PartStore} (h : s.Ok) (a b : Nat) :
    ({ s with pf := s.pf.reopenRange a b } : PartStore).Ok where
  pf := h.pf.reopenRange a b
  size_lt := by simpa using h.size_lt
  corrupted_lt := by simpa [corrupted_reopenRange] using h.corrupted_lt
  priority := h.priority

theorem PartStore.ok_create (hash : Hash16) (size : UInt64) (name : Bytes) :
    (PartStore.create hash size name).Ok where
  pf := PartFile.ok_of_wholeGap rfl
  size_lt := size.toNat_lt
  corrupted_lt := fun _ hp => absurd hp List.not_mem_nil
  priority := Or.inr (Or.inl rfl)

theorem PartStore.Ok.writeBlock {s : PartStore} (h : s.Ok) (file : Bytes) (start : Nat)
    (data : Bytes) : (s.writeBlock file start data).1.Ok := by
  unfold PartStore.writeBlock
  split
  · exact h
  · split
    · exact h
    · exact h.fillGap _ _

theorem PartStore.Ok.applyVerdict {s : PartStore} (h : s.Ok) {p : Nat}
    (hp : p < dataPartCount s.pf.size) (v : Option Bool) : (s.applyVerdict p v).Ok := by
  match v with
  | some true => exact h.clearCorrupt p
  | some false => exact h.markCorrupt hp
  | none => exact h

/-- One operation keeps the invariant. -/
theorem StoreOp.ok_apply {md4 : Bytes → Hash16} {s : PartStore} (h : s.Ok) (file : Bytes)
    {op : StoreOp} (hv : op.Valid s.pf.size) : (op.apply md4 s file).1.Ok := by
  cases op with
  | writeBlock start data => exact h.writeBlock file start data
  | verifyPart p => exact h.applyVerdict hv _
  | markCorrupt p => exact h.markCorrupt hv
  | reopenRange a b => exact h.reopenRange a b
  | resetAllGaps =>
    exact ⟨⟨PartFile.ok_resetAllGaps s.pf, h.size_lt⟩, fun _ hp => absurd hp List.not_mem_nil,
      h.priority⟩
  | setPartHashes hs =>
    exact ⟨⟨⟨h.pf.tidy, h.pf.stop_le⟩, h.size_lt⟩, h.corrupted_lt, h.priority⟩
  | setPriority p => exact ⟨⟨h.pf, h.size_lt⟩, h.corrupted_lt, hv⟩
  | setPaused on => exact ⟨⟨h.pf, h.size_lt⟩, h.corrupted_lt, h.priority⟩

theorem PartStore.hash_applyVerdict (s : PartStore) (p : Nat) (v : Option Bool) :
    (s.applyVerdict p v).pf.hash = s.pf.hash := by
  match v with
  | some true => rfl
  | some false => exact PartFile.hash_markCorrupt ..
  | none => rfl

/-- No operation changes which file is downloaded. -/
theorem StoreOp.hash_apply (md4 : Bytes → Hash16) (s : PartStore) (file : Bytes) (op : StoreOp) :
    (op.apply md4 s file).1.pf.hash = s.pf.hash := by
  cases op with
  | writeBlock start data =>
    simp only [StoreOp.apply, PartStore.writeBlock]
    split
    · rfl
    · split
      · rfl
      · exact PartFile.hash_fillGap ..
  | verifyPart p => exact PartStore.hash_applyVerdict s p _
  | markCorrupt p => exact PartFile.hash_markCorrupt ..
  | reopenRange a b => exact PartFile.hash_reopenRange ..
  | resetAllGaps | setPartHashes hs | setPriority p | setPaused on => rfl

theorem Reachable.ok {md4 : Bytes → Hash16} {s : PartStore} {file : Bytes}
    (h : Reachable md4 s file) : s.Ok := by
  induction h with
  | create hash size name => exact PartStore.ok_create hash size name
  | step op _ hv ih => exact StoreOp.ok_apply ih _ hv

end PadMule.Engine
