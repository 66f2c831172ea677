import PadMule.Proto.AichBase32
import PadMule.Files.KnownMet
import PadMule.Files.Known2Met
import PadMule.Engine.PartStore
import PadMule.Engine.ServeSession
import PadMule.Lib.FileMap
import PadMule.Lib.LossyUtf8
import PadMule.Lib.Runs
import PadMule.Lib.Slots

/-
  `mule-engine/src/engine.rs`, `known2_store.rs`: the catalog of the shared files on disk, and the
  store of their hashsets.

  Each operation reads the catalog, and writes it again through a temp file and a rename, so
  wherever it dies the catalog is the old one or the new one. What reads can be written, so a
  rewrite costs the other entries nothing. But a catalog that cannot be read counts as an empty
  one where a file is added and where the hashsets are pruned: the one replaces it, the other
  takes every hashset. Where neither happens the library survives (`library_survives`).
-/

namespace PadMule.Engine

open PadMule.Proto PadMule.Files FileMap

def FT_FILERATING : UInt8 := 0xF7
def FT_FILECOMMENT : UInt8 := 0xF6
def FT_AICH_HASH : UInt8 := 0x27

/-- `known.met`, `known2_64.met` and their temp files. -/
inductive LibraryFile where
  | knownMet
  | knownMetTmp
  | known2
  | known2Tmp
deriving DecidableEq

abbrev LibraryDir := Dir LibraryFile Bytes

/-- `as_bytes().to_vec()` -/
def utf8 (s : String) : Bytes := s.toUTF8.data.toList

theorem utf8_ofList (cs : List Char) : utf8 (String.ofList cs) = LossyUtf8.utf8Bytes cs :=
  LossyUtf8.toUTF8_ofList cs

/-- How far the write of a file and the rename over its target get. -/
inductive SaveFate where
  | unwritten
  /-- Dead inside the write, with that many bytes of it on disk. -/
  | torn (n : Nat)
  /-- The write fails, with that many bytes of it on disk. -/
  | failed (n : Nat)
  /-- Dead before the rename, or the rename fails. -/
  | written
  | renamed
deriving DecidableEq

/-! ## The catalog -/

namespace SharedFile

def large (sf : SharedFile) : Bool := OLD_MAX_FILE_SIZE < sf.size.toNat

def tags (sf : SharedFile) : List Tag :=
  [Tag.ofId FT_FILENAME (.str sf.name),
    Tag.ofId FT_FILESIZE (if sf.large then .u64 sf.size else .u32 sf.size.toUInt32)] ++
    (if sf.rating ≠ 0 then [Tag.ofId FT_FILERATING (.u8 sf.rating)] else []) ++
    (if sf.comment ≠ "" then [Tag.ofId FT_FILECOMMENT (.str (utf8 sf.comment))] else []) ++
    (sf.aichRoot.map fun root => Tag.ofId FT_AICH_HASH (.str (aichBase32 root))).toList

/-- The entry of a file with this mtime. -/
def entry (sf : SharedFile) (date : UInt32) : KnownFileEntry :=
  ⟨date, sf.hash, sf.partHashes, sf.tags⟩

end SharedFile

/-- The name of a rating or a comment. -/
def isMetaName (name : TagName) : Bool := name = .id FT_FILERATING ∨ name = .id FT_FILECOMMENT

def retag (rating : UInt8) (comment : String) (e : KnownFileEntry) : KnownFileEntry :=
  { e with
    tags := e.tags.filter (fun t => !isMetaName t.name) ++
      (if rating ≠ 0 then [Tag.ofId FT_FILERATING (.u8 rating)] else []) ++
      (if comment ≠ "" then [Tag.ofId FT_FILECOMMENT (.str (utf8 comment))] else []) }

/-- `persist_shared_file`: the catalog it writes, if any. -/
def persistSharedFile (catalog : Option KnownMet) (sf : SharedFile) (date : UInt32) :
    Option KnownMet :=
  let met := catalog.getD ⟨MET_HEADER, []⟩
  if met.entries.any fun e => e.fileHash = sf.hash then none
  else
    some ⟨if sf.large then MET_HEADER_WITH_LARGEFILES else met.header,
      met.entries ++ [sf.entry date]⟩

/-- `update_shared_file_meta` -/
def updateSharedFileMeta (catalog : Option KnownMet) (hash : Hash16) (rating : UInt8)
    (comment : String) : Option KnownMet := do
  let met ← catalog
  let i ← met.entries.findIdx? fun e => e.fileHash = hash
  return { met with entries := met.entries.modify i (retag rating comment) }

/-- `forget_shared_file` -/
def forgetSharedFile (catalog : Option KnownMet) (hash : Hash16) : Option KnownMet := do
  let met ← catalog
  let kept := met.entries.filter fun e => e.fileHash ≠ hash
  if kept.length ≠ met.entries.length then some { met with entries := kept } else none

/-- `tag_str`; the bytes of a string that is no UTF-8 are no AICH root either. -/
def tagStr (tags : List Tag) (id : UInt8) : Option Bytes :=
  tags.findSome? fun t =>
    match t.name, t.value with
    | .id n, .str s => if n = id then some s else none
    | _, _ => none

/-- `known_met_aich_roots` -/
def knownMetAichRoots (catalog : Option KnownMet) : List Hash20 :=
  (catalog.map fun met => (met.entries.filterMap fun e => tagStr e.tags FT_AICH_HASH).filterMap
    aichFromBase32).getD []

/-! ## The files -/

/-- `fs::read(..).ok()` -/
def readLibraryFile (d : LibraryDir) (fails : LibraryFile → Bool) (f : LibraryFile) :
    Option Bytes :=
  if fails f then none else get d f

def readCatalog (d : LibraryDir) (fails : LibraryFile → Bool) : Option KnownMet :=
  (readLibraryFile d fails .knownMet).bind fun b => (readKnownMet b).toOption

/-- `write_bytes_atomic` -/
def writeBytesAtomic (file tmp : LibraryFile) (bytes : Bytes) :
    SaveFate → List (Op LibraryFile Bytes)
  | .unwritten => []
  | .torn n | .failed n => [.write tmp (bytes.take n)]
  | .written => [.write tmp bytes]
  | .renamed => [.write tmp bytes, .rename tmp file]

/-- `Known2Store::write_atomic`: a temp file that could not be written is removed. -/
def writeStoreAtomic (bytes : Bytes) : SaveFate → List (Op LibraryFile Bytes)
  | .failed n => [.write .known2Tmp (bytes.take n), .remove .known2Tmp]
  | fate => writeBytesAtomic .known2 .known2Tmp bytes fate

inductive LibraryOp where
  | persist (sf : SharedFile) (date : UInt32)
  | updateMeta (hash : Hash16) (rating : UInt8) (comment : String)
  | forget (hash : Hash16)
  /-- The prune of `start`. -/
  | prune
  /-- Whatever else happens to the hashset store and its index. -/
  | restock (content : Option Bytes) (index : List (Hash20 × Nat))

structure LibraryStep where
  op : LibraryOp
  /-- The files whose read fails. -/
  fails : LibraryFile → Bool
  fate : SaveFate

structure Library where
  dir : LibraryDir
  /-- The index of the hashset store. -/
  index : List (Hash20 × Nat)

namespace Library

/-- `write_known_met_atomic` of a catalog, where there is one to write. -/
def save (l : Library) (fate : SaveFate) : Option KnownMet → Library
  | none => l
  | some met =>
    { l with dir := run (writeBytesAtomic .knownMet .knownMetTmp (writeKnownMet met) fate) l.dir }

/-- `Known2Store::prune_orphans` -/
def pruneOrphans (l : Library) (fails : LibraryFile → Bool) (fate : SaveFate)
    (live : List Hash20) : Library :=
  let orphans := (l.index.map Prod.fst).filter (· ∉ live)
  if orphans = [] then l
  else
    match readLibraryFile l.dir fails .known2 with
    | none => l
    | some bytes =>
      let bytes := orphans.foldl (fun b root => (removeKnown2Entry b root).getD b) bytes
      { dir := run (writeStoreAtomic bytes fate) l.dir
        index :=
          if fate = .renamed then ((scanKnown2Met bytes).toOption.map Known2Index.byRoot).getD []
          else l.index }

def apply (l : Library) (s : LibraryStep) : Library :=
  let catalog := readCatalog l.dir s.fails
  match s.op with
  | .persist sf date => l.save s.fate (persistSharedFile catalog sf date)
  | .updateMeta hash rating comment =>
    l.save s.fate (updateSharedFileMeta catalog hash rating comment)
  | .forget hash => l.save s.fate (forgetSharedFile catalog hash)
  | .prune => l.pruneOrphans s.fails s.fate (knownMetAichRoots catalog)
  | .restock none index => ⟨remove l.dir .known2, index⟩
  | .restock (some content) index => ⟨write l.dir .known2 content, index⟩

def step (l : Library) (s : LibraryStep) : Option Library := some (l.apply s)

/-! ## What is on disk -/

/-- The entries of the catalog, `none` where it does not parse. -/
def entries (l : Library) : Option (List KnownFileEntry) :=
  match get l.dir .knownMet with
  | none => some []
  | some b => (readKnownMet b).toOption.map KnownMet.entries

def hashsets (l : Library) : List Known2Entry :=
  match get l.dir .known2 with
  | none => []
  | some b => known2Entries b

/-- The catalog is there, and the step cannot read or parse it. -/
def Damaged (l : Library) (s : LibraryStep) : Prop :=
  (get l.dir .knownMet).isSome ∧ readCatalog l.dir s.fails = none

instance (l : Library) (s : LibraryStep) : Decidable (l.Damaged s) :=
  inferInstanceAs (Decidable (_ ∧ _))

end Library

/-! ## What the operations are for -/

/-- An entry with another rating and comment; the rest of it is intact. -/
structure Retagged (rating : UInt8) (comment : String) (e e' : KnownFileEntry) : Prop where
  date : e'.date = e.date
  fileHash : e'.fileHash = e.fileHash
  partHashes : e'.partHashes = e.partHashes
  others : e'.tags.filter (fun t => !isMetaName t.name) = e.tags.filter fun t => !isMetaName t.name
  metas : e'.tags.filter (fun t => isMetaName t.name) =
    (if rating ≠ 0 then [Tag.ofId FT_FILERATING (.u8 rating)] else []) ++
      (if comment ≠ "" then [Tag.ofId FT_FILECOMMENT (.str (utf8 comment))] else [])

/-- The named file added, re-tagged or removed. -/
def Edited : LibraryOp → List KnownFileEntry → List KnownFileEntry → Prop
  | .persist sf date, es, es' =>
    (∃ e ∈ es, e.fileHash = sf.hash) ∧ es' = es ∨
      (∀ e ∈ es, e.fileHash ≠ sf.hash) ∧ es' = es ++ [sf.entry date]
  | .updateMeta hash rating comment, es, es' =>
    (∀ e ∈ es, e.fileHash ≠ hash) ∧ es' = es ∨
      ∃ pre e post e', es = pre ++ e :: post ∧ (∀ x ∈ pre, x.fileHash ≠ hash) ∧
        e.fileHash = hash ∧ Retagged rating comment e e' ∧ es' = pre ++ e' :: post
  | .forget hash, es, es' => es' = es.filter fun e => e.fileHash ≠ hash
  | _, es, es' => es' = es

/-- The file an operation is about. -/
def LibraryOp.named : LibraryOp → Option Hash16
  | persist sf _ => some sf.hash
  | updateMeta hash _ _ => some hash
  | forget hash => some hash
  | _ => none

def othersOf (op : LibraryOp) (es : List KnownFileEntry) : List KnownFileEntry :=
  es.filter fun e => op.named ≠ some e.fileHash

theorem retagged_retag (rating : UInt8) (comment : String) (e : KnownFileEntry) :
    Retagged rating comment e (retag rating comment e) where
  date := rfl
  fileHash := rfl
  partHashes := rfl
  others := by
    simp only [retag, List.filter_append, List.filter_filter, Bool.and_self]
    split <;> split <;> simp [Tag.ofId, isMetaName]
  metas := by
    have hnone : (e.tags.filter fun t => isMetaName t.name && !isMetaName t.name) = [] := by simp
    simp only [retag, List.filter_append, List.filter_filter, hnone]
    split <;> split <;> simp [Tag.ofId, isMetaName]

/-- No other file's entry is touched, and the order of the others stays. -/
theorem Edited.others {op : LibraryOp} {es es' : List KnownFileEntry} (h : Edited op es es') :
    othersOf op es' = othersOf op es := by
  cases op with
  | persist sf date =>
    rcases h with ⟨-, rfl⟩ | ⟨-, rfl⟩
    · rfl
    · simp [othersOf, LibraryOp.named, SharedFile.entry]
  | updateMeta hash rating comment =>
    rcases h with ⟨-, rfl⟩ | ⟨pre, e, post, e', rfl, -, he, hretag, rfl⟩
    · rfl
    · simp [othersOf, LibraryOp.named, he, hretag.fileHash]
  | forget hash =>
    cases h
    simp only [othersOf, LibraryOp.named, List.filter_filter]
    congr 1
    funext e
    simp [eq_comm]
  | prune => exact congrArg _ h
  | restock content index => exact congrArg _ h

namespace Library

/-- A damaged catalog stays as it is and costs no hashset; from any other, the entries afterwards
    are the ones before or, where the rename was reached, those with the named file edited. -/
structure Survives (l : Library) (s : LibraryStep) : Prop where
  unreplaced : l.Damaged s → get (l.apply s).dir .knownMet = get l.dir .knownMet
  unpruned : l.Damaged s → s.op = .prune → (l.apply s).hashsets = l.hashsets
  edited : ¬l.Damaged s → ∀ es, l.entries = some es → ∃ es', (l.apply s).entries = some es' ∧
    (if s.fate = .renamed then Edited s.op es es' else es' = es) ∧
    othersOf s.op es' = othersOf s.op es

/-! ## The files of a save -/

theorem get_writeBytesAtomic {file tmp : LibraryFile} (hne : file ≠ tmp) (bytes : Bytes)
    (fate : SaveFate) (d : LibraryDir) :
    get (run (writeBytesAtomic file tmp bytes fate) d) file =
      if fate = .renamed then some bytes else get d file := by
  have htmp (v : Bytes) : get (FileMap.write d tmp v) file = get d file := by
    rw [get_write, if_neg hne]
  cases fate with
  | unwritten => rfl
  | torn n => exact htmp _
  | failed n => exact htmp _
  | written => exact htmp _
  | renamed =>
    show get (rename (FileMap.write d tmp bytes) tmp file) file = _
    rw [get_rename, get_write, if_pos rfl, if_pos rfl, if_pos rfl, Option.isSome_some, if_pos rfl]

theorem get_writeBytesAtomic_ne {file tmp j : LibraryFile} (hfile : j ≠ file) (htmp : j ≠ tmp)
    (bytes : Bytes) (fate : SaveFate) (d : LibraryDir) :
    get (run (writeBytesAtomic file tmp bytes fate) d) j = get d j := by
  refine get_run_of_notMem (fun op hop => ?_) d
  cases fate <;> simp only [writeBytesAtomic, List.mem_cons, List.not_mem_nil, or_false] at hop
  case renamed => rcases hop with rfl | rfl <;> simp [Op.touched, hfile, htmp]
  all_goals
    subst hop
    simp [Op.touched, htmp]

theorem writeStoreAtomic_cases (bytes : Bytes) (fate : SaveFate) :
    (∃ n, fate = .failed n) ∨
      writeStoreAtomic bytes fate = writeBytesAtomic .known2 .known2Tmp bytes fate := by
  cases fate with
  | failed n => exact .inl ⟨n, rfl⟩
  | _ => exact .inr rfl

theorem get_writeStoreAtomic (bytes : Bytes) (fate : SaveFate) (d : LibraryDir) :
    get (run (writeStoreAtomic bytes fate) d) .known2 =
      if fate = .renamed then some bytes else get d .known2 := by
  have hne : LibraryFile.known2 ≠ .known2Tmp := by decide
  rcases writeStoreAtomic_cases bytes fate with ⟨n, rfl⟩ | hops
  · show get (FileMap.remove (FileMap.write d .known2Tmp (bytes.take n)) .known2Tmp) .known2 = _
    rw [get_remove, if_neg hne, get_write, if_neg hne, if_neg (by simp)]
  · rw [hops, get_writeBytesAtomic hne]

theorem get_writeStoreAtomic_knownMet (bytes : Bytes) (fate : SaveFate) (d : LibraryDir) :
    get (run (writeStoreAtomic bytes fate) d) .knownMet = get d .knownMet := by
  have hstore : LibraryFile.knownMet ≠ .known2 := by decide
  have htmp : LibraryFile.knownMet ≠ .known2Tmp := by decide
  rcases writeStoreAtomic_cases bytes fate with ⟨n, rfl⟩ | hops
  · show get (FileMap.remove (FileMap.write d .known2Tmp (bytes.take n)) .known2Tmp) .knownMet = _
    rw [get_remove, if_neg htmp, get_write, if_neg htmp]
  · rw [hops, get_writeBytesAtomic_ne hstore htmp]

variable {l : Library} {fate : SaveFate}

theorem knownMet_pruneOrphans (fails : LibraryFile → Bool) (live : List Hash20) :
    get (l.pruneOrphans fails fate live).dir .knownMet = get l.dir .knownMet := by
  unfold pruneOrphans
  by_cases hnone : (l.index.map Prod.fst).filter (· ∉ live) = []
  · rw [if_pos hnone]
  · rw [if_neg hnone]
    cases readLibraryFile l.dir fails .known2 with
    | none => rfl
    | some bytes => exact get_writeStoreAtomic_knownMet _ _ _

theorem entries_congr {l' : Library} (h : get l'.dir .knownMet = get l.dir .knownMet) :
    l'.entries = l.entries := by
  rw [entries, entries, h]

/-- The catalog after a save is the new one if the rename was reached, and else the old one. -/
theorem entries_save {met : KnownMet} (h : fate = .renamed → met.Writable) :
    (l.save fate (some met)).entries = if fate = .renamed then some met.entries else l.entries := by
  have hget : get (l.save fate (some met)).dir .knownMet =
      if fate = .renamed then some (writeKnownMet met) else get l.dir .knownMet :=
    get_writeBytesAtomic (by decide) _ _ _
  by_cases hfate : fate = .renamed
  · rw [if_pos hfate] at hget ⊢
    rw [entries, hget]
    dsimp only
    rw [readKnownMet_writeKnownMet (h hfate)]
    rfl
  · rw [if_neg hfate] at hget ⊢
    exact entries_congr hget

/-! ## Pruning -/

theorem known2Entries_foldl (orphans : List Hash20) (bytes : Bytes) :
    known2Entries (orphans.foldl (fun b root => (removeKnown2Entry b root).getD b) bytes) =
      (known2Entries bytes).filter fun e => e.root ∉ orphans := by
  induction orphans generalizing bytes with
  | nil => simp
  | cons root orphans ih =>
    rw [List.foldl_cons, ih, known2Entries_remove, List.filter_filter]
    congr 1
    funext e
    simp [Bool.and_comm]

/-- The prune takes the hashsets that are in the index and not live. -/
theorem hashsets_pruneOrphans (fails : LibraryFile → Bool) (live : List Hash20) :
    (l.pruneOrphans fails fate live).hashsets =
      if fate = .renamed ∧ fails .known2 = false then
        l.hashsets.filter fun e => e.root ∉ l.index.map Prod.fst ∨ e.root ∈ live
      else l.hashsets := by
  have hkeep : ∀ e : Known2Entry, e.root ∉ (l.index.map Prod.fst).filter (· ∉ live) ↔
      e.root ∉ l.index.map Prod.fst ∨ e.root ∈ live := by
    intro e
    rw [List.mem_filter, decide_eq_true_iff, not_and_or, not_not]
  unfold pruneOrphans
  by_cases hnone : (l.index.map Prod.fst).filter (· ∉ live) = []
  · rw [if_pos hnone]
    rw [hnone] at hkeep
    have hall : (l.hashsets.filter fun e => e.root ∉ l.index.map Prod.fst ∨ e.root ∈ live) =
        l.hashsets :=
      List.filter_eq_self.mpr fun e _ => decide_eq_true ((hkeep e).mp List.not_mem_nil)
    rw [hall, ite_self]
  · rw [if_neg hnone]
    cases hread : readLibraryFile l.dir fails .known2 with
    | none =>
      cases hfails : fails .known2 with
      | true => rw [if_neg (by simp)]
      | false =>
        rw [readLibraryFile, hfails] at hread
        have hget : get l.dir .known2 = none := hread
        have hempty : l.hashsets = [] := by rw [hashsets, hget]
        rw [hempty, List.filter_nil, ite_self]
    | some bytes =>
      have hfails : fails .known2 = false := by
        by_contra hne
        rw [readLibraryFile, if_pos (by simpa using hne)] at hread
        cases hread
      have hget : get l.dir .known2 = some bytes := by
        rw [readLibraryFile, hfails] at hread
        exact hread
      have hstore : l.hashsets = known2Entries bytes := by rw [hashsets, hget]
      dsimp only
      rw [hashsets]
      dsimp only
      rw [get_writeStoreAtomic]
      by_cases hfate : fate = .renamed
      · rw [if_pos hfate, if_pos ⟨hfate, hfails⟩, hstore]
        dsimp only
        rw [known2Entries_foldl]
        exact List.filter_congr fun e _ => decide_eq_decide.mpr (hkeep e)
      · rw [if_neg hfate, if_neg fun h => hfate h.1, hget, hstore]

/-- A hashset the catalog claims survives the prune. -/
theorem claimed_hashset_stays {fails : LibraryFile → Bool} {live : List Hash20} {e : Known2Entry}
    (he : e ∈ l.hashsets) (hlive : e.root ∈ live) :
    e ∈ (l.pruneOrphans fails fate live).hashsets := by
  rw [hashsets_pruneOrphans]
  split
  · exact List.mem_filter.mpr ⟨he, decide_eq_true (.inr hlive)⟩
  · exact he

end Library

/-! ## What each operation writes -/

/-- No field of the file is longer than the codec can say. -/
structure SharedFile.Fits (sf : SharedFile) : Prop where
  name_le : sf.name.length ≤ 65535
  comment_le : (utf8 sf.comment).length ≤ 65535
  hashes_le : sf.partHashes.length ≤ 65535

instance (sf : SharedFile) : Decidable sf.Fits :=
  decidable_of_iff (sf.name.length ≤ 65535 ∧ (utf8 sf.comment).length ≤ 65535 ∧
      sf.partHashes.length ≤ 65535)
    ⟨fun h => ⟨h.1, h.2.1, h.2.2⟩, fun h => ⟨h.name_le, h.comment_le, h.hashes_le⟩⟩

theorem Tag.writable_ofId {id : UInt8} {v : TagValue} (h : v.Writable) : (Tag.ofId id v).Writable :=
  ⟨trivial, h⟩

theorem SharedFile.Fits.writable_entry {sf : SharedFile} (h : sf.Fits) (date : UInt32) :
    (sf.entry date).Writable := by
  refine ⟨h.hashes_le, ?_, ?_⟩
  · show sf.tags.length < 2 ^ 32
    unfold SharedFile.tags
    split <;> split <;> split <;> cases sf.aichRoot <;> simp
  · intro t ht
    simp only [entry, tags, List.mem_append, or_assoc] at ht
    rcases ht with ht | ht | ht | ht
    · rcases List.mem_cons.mp ht with rfl | ht
      · exact Tag.writable_ofId h.name_le
      · rw [List.mem_singleton.mp ht]
        split <;> exact Tag.writable_ofId trivial
    · split at ht
      · rw [List.mem_singleton.mp ht]
        exact Tag.writable_ofId trivial
      · exact absurd ht List.not_mem_nil
    · split at ht
      · rw [List.mem_singleton.mp ht]
        exact Tag.writable_ofId h.comment_le
      · exact absurd ht List.not_mem_nil
    · obtain ⟨root, -, hroot⟩ := Option.map_eq_some_iff.mp (Option.mem_toList.mp ht)
      rw [← hroot]
      exact Tag.writable_ofId (by simp [TagValue.Writable, length_aichBase32])

theorem writable_retag {e : KnownFileEntry} {rating : UInt8} {comment : String} (h : e.Writable)
    (hcomment : (utf8 comment).length ≤ 65535)
    (hcount : (retag rating comment e).tags.length < 2 ^ 32) : (retag rating comment e).Writable := by
  refine ⟨h.hashes_le, hcount, fun t ht => ?_⟩
  simp only [retag, List.mem_append, or_assoc] at ht
  rcases ht with ht | ht | ht
  · exact h.tags t (List.mem_filter.mp ht).1
  · split at ht
    · rw [List.mem_singleton.mp ht]
      exact Tag.writable_ofId trivial
    · exact absurd ht List.not_mem_nil
  · split at ht
    · rw [List.mem_singleton.mp ht]
      exact Tag.writable_ofId hcomment
    · exact absurd ht List.not_mem_nil

/-- What a file is added to where there is no catalog. -/
def emptyCatalog : KnownMet := ⟨MET_HEADER, []⟩

theorem writable_emptyCatalog : emptyCatalog.Writable :=
  ⟨.inl rfl, by decide, fun _ he => absurd he List.not_mem_nil⟩

section Writes

variable {catalog : Option KnownMet} {met : KnownMet} {hash : Hash16} {rating : UInt8}
  {comment : String} {sf : SharedFile} {date : UInt32}

theorem edited_persist (hmet : catalog.getD emptyCatalog = met) :
    Edited (.persist sf date) met.entries
      (((persistSharedFile catalog sf date).map KnownMet.entries).getD met.entries) := by
  unfold persistSharedFile
  rw [show catalog.getD ⟨MET_HEADER, []⟩ = met from hmet]
  by_cases hany : met.entries.any fun e => e.fileHash = sf.hash
  · rw [if_pos hany]
    obtain ⟨e, he, heq⟩ := List.any_eq_true.mp hany
    exact .inl ⟨⟨e, he, of_decide_eq_true heq⟩, rfl⟩
  · rw [if_neg hany]
    refine .inr ⟨fun e he heq => hany ?_, rfl⟩
    exact List.any_eq_true.mpr ⟨e, he, decide_eq_true heq⟩

theorem writable_persist {met' : KnownMet} (hmet : catalog.getD emptyCatalog = met)
    (hw : met.Writable)
    (hfits : (∀ e ∈ met.entries, e.fileHash ≠ sf.hash) →
      sf.Fits ∧ met.entries.length + 1 < 2 ^ 32)
    (h : persistSharedFile catalog sf date = some met') : met'.Writable := by
  unfold persistSharedFile at h
  rw [show catalog.getD ⟨MET_HEADER, []⟩ = met from hmet] at h
  by_cases hany : met.entries.any fun e => e.fileHash = sf.hash
  · rw [if_pos hany] at h
    cases h
  · rw [if_neg hany] at h
    cases h
    obtain ⟨hsf, hcount⟩ := hfits fun e he heq =>
      hany (List.any_eq_true.mpr ⟨e, he, decide_eq_true heq⟩)
    refine ⟨?_, by rwa [List.length_append], fun e he => ?_⟩
    · dsimp only
      split
      · exact .inr rfl
      · exact hw.header
    · rcases List.mem_append.mp he with he | he
      · exact hw.entries e he
      · rw [List.mem_singleton.mp he]
        exact hsf.writable_entry date

/-- Without the file there is nothing to write, and with it its first entry is re-tagged. -/
theorem updateSharedFileMeta_some (met : KnownMet) (hash : Hash16) (rating : UInt8)
    (comment : String) :
    updateSharedFileMeta (some met) hash rating comment =
      (met.entries.findIdx? fun e => e.fileHash = hash).map fun i =>
        { met with entries := met.entries.modify i (retag rating comment) } := by
  cases hfind : met.entries.findIdx? fun e => e.fileHash = hash <;>
    simp [updateSharedFileMeta, hfind]

theorem edited_updateMeta :
    Edited (.updateMeta hash rating comment) met.entries
      (((updateSharedFileMeta (some met) hash rating comment).map KnownMet.entries).getD
        met.entries) := by
  rw [updateSharedFileMeta_some]
  cases hfind : met.entries.findIdx? fun e => e.fileHash = hash with
  | none =>
    refine .inl ⟨fun e he => ?_, rfl⟩
    simpa using List.findIdx?_eq_none_iff.mp hfind e he
  | some i =>
    obtain ⟨pre, e, post, hes, hpre, hfirst, hmodify⟩ :=
      Slots.modify_of_findIdx? hfind (retag rating comment)
    refine .inr ⟨pre, e, post, retag rating comment e, hes, fun x hx => ?_, ?_,
      retagged_retag rating comment e, hmodify⟩
    · simpa using hpre x hx
    · simpa using List.find?_some hfirst

theorem writable_updateMeta {met' : KnownMet} (hw : met.Writable)
    (hfits : ∀ e ∈ met.entries.find? fun e => e.fileHash = hash,
      (utf8 comment).length ≤ 65535 ∧ (retag rating comment e).tags.length < 2 ^ 32)
    (h : updateSharedFileMeta (some met) hash rating comment = some met') : met'.Writable := by
  rw [updateSharedFileMeta_some] at h
  obtain ⟨i, hfind, rfl⟩ := Option.map_eq_some_iff.mp h
  obtain ⟨pre, e, post, hes, hpre, hfirst, hmodify⟩ :=
    Slots.modify_of_findIdx? hfind (retag rating comment)
  obtain ⟨hcomment, hcount⟩ := hfits e hfirst
  have hlen : (met.entries.modify i (retag rating comment)).length = met.entries.length :=
    List.length_modify ..
  refine ⟨hw.header, hlen ▸ hw.count_lt, fun x hx => ?_⟩
  have hold : ∀ y ∈ pre ++ e :: post, y.Writable := hes ▸ hw.entries
  rw [hmodify, List.mem_append, List.mem_cons] at hx
  rcases hx with hx | rfl | hx
  · exact hold x (List.mem_append_left _ hx)
  · exact writable_retag (hold e (List.mem_append_right _ List.mem_cons_self)) hcomment hcount
  · exact hold x (List.mem_append_right _ (List.mem_cons_of_mem _ hx))

theorem edited_forget :
    Edited (.forget hash) met.entries
      (((forgetSharedFile (some met) hash).map KnownMet.entries).getD met.entries) := by
  by_cases hlen : (met.entries.filter fun e => e.fileHash ≠ hash).length ≠ met.entries.length
  · have hsome : forgetSharedFile (some met) hash =
        some { met with entries := met.entries.filter fun e => e.fileHash ≠ hash } := if_pos hlen
    rw [hsome]
    rfl
  · have hnone : forgetSharedFile (some met) hash = none := if_neg hlen
    rw [hnone]
    exact (List.filter_sublist.eq_of_length (not_not.mp hlen)).symm

theorem writable_forget {met' : KnownMet} (hw : met.Writable)
    (h : forgetSharedFile (some met) hash = some met') : met'.Writable := by
  have hcases : (if (met.entries.filter fun e => e.fileHash ≠ hash).length ≠ met.entries.length
      then some { met with entries := met.entries.filter fun e => e.fileHash ≠ hash }
      else none) = some met' := h
  split at hcases
  · cases hcases
    exact ⟨hw.header, (List.length_filter_le ..).trans_lt hw.count_lt,
      fun e he => hw.entries e (List.mem_filter.mp he).1⟩
  · cases hcases

end Writes

namespace Library

variable {l : Library} {s : LibraryStep}

/-! ## Where the library survives -/

/-- A step that reaches its rename neither replaces a damaged catalog nor prunes an indexed hashset
    because of one, and what it adds to the catalog fits the codec. -/
def Careful (l : Library) (s : LibraryStep) : Prop :=
  s.fate = .renamed →
    match s.op with
    | .persist sf _ => ¬l.Damaged s ∧ ∀ es ∈ l.entries, (∀ e ∈ es, e.fileHash ≠ sf.hash) →
        sf.Fits ∧ es.length + 1 < 2 ^ 32
    | .updateMeta hash rating comment => ¬l.Damaged s → ∀ es ∈ l.entries,
        ∀ e ∈ es.find? fun e => e.fileHash = hash,
          (utf8 comment).length ≤ 65535 ∧ (retag rating comment e).tags.length < 2 ^ 32
    | .prune => l.Damaged s → s.fails .known2 = true ∨
        ∀ e ∈ l.hashsets, e.root ∉ l.index.map Prod.fst
    | .forget _ | .restock _ _ => True

instance (l : Library) (s : LibraryStep) : Decidable (l.Careful s) := by
  unfold Careful
  obtain ⟨op, fails, fate⟩ := s
  cases op <;> exact inferInstance

/-- An undamaged catalog is absent, or it parses. -/
theorem catalog_cases (h : ¬l.Damaged s) :
    readCatalog l.dir s.fails = none ∧ l.entries = some [] ∨
      ∃ met, readCatalog l.dir s.fails = some met ∧ l.entries = some met.entries ∧
        met.Writable := by
  cases hget : get l.dir .knownMet with
  | none =>
    left
    have hfile : readLibraryFile l.dir s.fails .knownMet = none := by
      rw [readLibraryFile, hget, ite_self]
    exact ⟨by rw [readCatalog, hfile, Option.bind_none], by rw [entries, hget]⟩
  | some b =>
    right
    obtain ⟨met, hmet⟩ := Option.ne_none_iff_exists'.mp fun hnone => h ⟨by rw [hget]; rfl, hnone⟩
    obtain ⟨b', hfile, hparse⟩ := Option.bind_eq_some_iff.mp hmet
    have hb : b' = b := by
      unfold readLibraryFile at hfile
      split at hfile
      · cases hfile
      · exact Option.some.inj (hfile.symm.trans hget)
    subst hb
    cases hread : readKnownMet b' with
    | error e =>
      rw [hread] at hparse
      cases hparse
    | ok m =>
      rw [hread] at hparse
      cases hparse
      refine ⟨_, hmet, ?_, writable_of_readKnownMet hread⟩
      rw [entries, hget]
      dsimp only
      rw [hread]
      rfl

/-- A save of an edited catalog that can be written. -/
theorem edited_of_save {new : Option KnownMet} (happly : l.apply s = l.save s.fate new)
    {es : List KnownFileEntry} (hes : l.entries = some es)
    (hedit : Edited s.op es ((new.map KnownMet.entries).getD es))
    (hw : s.fate = .renamed → ∀ met, new = some met → met.Writable) :
    ∃ es', (l.apply s).entries = some es' ∧
      (if s.fate = .renamed then Edited s.op es es' else es' = es) ∧
      othersOf s.op es' = othersOf s.op es := by
  rw [happly]
  cases new with
  | none =>
    refine ⟨es, hes, ?_, rfl⟩
    split
    · exact hedit
    · rfl
  | some met =>
    have hsave := entries_save (l := l) fun hfate => hw hfate met rfl
    by_cases hfate : s.fate = .renamed
    · rw [if_pos hfate] at hsave
      exact ⟨met.entries, hsave, by rwa [if_pos hfate], hedit.others⟩
    · rw [if_neg hfate] at hsave
      exact ⟨es, hsave.trans hes, by rw [if_neg hfate], rfl⟩

/-- A step that leaves the catalog alone. -/
theorem edited_of_same (hget : get (l.apply s).dir .knownMet = get l.dir .knownMet)
    {es : List KnownFileEntry} (hes : l.entries = some es) (hedit : Edited s.op es es) :
    ∃ es', (l.apply s).entries = some es' ∧
      (if s.fate = .renamed then Edited s.op es es' else es' = es) ∧
      othersOf s.op es' = othersOf s.op es := by
  refine ⟨es, (entries_congr hget).trans hes, ?_, rfl⟩
  split
  · exact hedit
  · rfl

section Steps

variable {fails : LibraryFile → Bool} {fate : SaveFate}

theorem survives_persist {sf : SharedFile} {date : UInt32}
    (h : l.Careful ⟨.persist sf date, fails, fate⟩) :
    l.Survives ⟨.persist sf date, fails, fate⟩ where
  unreplaced hdamaged := by
    have hfate : fate ≠ .renamed := fun hfate => (h hfate).1 hdamaged
    show get (l.save fate (persistSharedFile _ sf date)).dir .knownMet = _
    cases persistSharedFile (readCatalog l.dir fails) sf date with
    | none => rfl
    | some met =>
      show get (run (writeBytesAtomic .knownMet .knownMetTmp _ fate) l.dir) .knownMet = _
      rw [get_writeBytesAtomic (by decide), if_neg hfate]
  unpruned _ hop := nomatch hop
  edited hwhole es hes := by
    obtain ⟨met, hmet, hw, rfl⟩ : ∃ met, (readCatalog l.dir fails).getD emptyCatalog = met ∧
        met.Writable ∧ met.entries = es := by
      rcases catalog_cases hwhole with ⟨hcat, hentries⟩ | ⟨met, hcat, hentries, hw⟩
      · exact ⟨emptyCatalog, by rw [hcat]; rfl, writable_emptyCatalog,
          Option.some.inj (hentries.symm.trans hes)⟩
      · exact ⟨met, by rw [hcat]; rfl, hw, Option.some.inj (hentries.symm.trans hes)⟩
    exact edited_of_save rfl hes (edited_persist hmet) fun hfate met' =>
      writable_persist hmet hw ((h hfate).2 _ hes)

/-- An operation that gives up on a catalog it cannot read. -/
theorem survives_of_read {op : LibraryOp} (new : Option KnownMet → Option KnownMet)
    (happly : l.apply ⟨op, fails, fate⟩ = l.save fate (new (readCatalog l.dir fails)))
    (hnone : new none = none) (hop : op ≠ .prune) (hempty : Edited op [] [])
    (hedit : ∀ met, Edited op met.entries (((new (some met)).map KnownMet.entries).getD met.entries))
    (hw : ¬l.Damaged ⟨op, fails, fate⟩ → fate = .renamed → ∀ met met', met.Writable →
      l.entries = some met.entries → new (some met) = some met' → met'.Writable) :
    l.Survives ⟨op, fails, fate⟩ where
  unreplaced hdamaged := by
    have hcat : readCatalog l.dir fails = none := hdamaged.2
    rw [happly, hcat, hnone]
    rfl
  unpruned _ h := absurd h hop
  edited hwhole es hes := by
    rcases catalog_cases hwhole with ⟨hcat, hentries⟩ | ⟨met, hcat, hentries, hmet⟩
    · cases hes.symm.trans hentries
      have hsame : l.apply ⟨op, fails, fate⟩ = l := by
        rw [happly, hcat, hnone]
        rfl
      exact edited_of_same (by rw [hsame]) hes hempty
    · cases hes.symm.trans hentries
      have hsave : l.apply ⟨op, fails, fate⟩ = l.save fate (new (some met)) := by
        rw [happly, hcat]
      exact edited_of_save hsave hes (hedit met) fun hfate met' hnew =>
        hw hwhole hfate met met' hmet hes hnew

theorem survives_updateMeta {hash : Hash16} {rating : UInt8} {comment : String}
    (h : l.Careful ⟨.updateMeta hash rating comment, fails, fate⟩) :
    l.Survives ⟨.updateMeta hash rating comment, fails, fate⟩ := by
  have hempty : Edited (.updateMeta hash rating comment) [] [] := .inl ⟨by simp, rfl⟩
  exact survives_of_read (fun catalog => updateSharedFileMeta catalog hash rating comment) rfl rfl
    (by simp) hempty (fun _ => edited_updateMeta) fun hwhole hfate _ _ hmet hes hnew =>
      writable_updateMeta hmet (h hfate hwhole _ hes) hnew

theorem survives_forget {hash : Hash16} : l.Survives ⟨.forget hash, fails, fate⟩ :=
  survives_of_read (fun catalog => forgetSharedFile catalog hash) rfl rfl (by simp) rfl
    (fun _ => edited_forget) fun _ _ _ _ hmet _ hnew => writable_forget hmet hnew

theorem survives_prune (h : l.Careful ⟨.prune, fails, fate⟩) :
    l.Survives ⟨.prune, fails, fate⟩ where
  unreplaced _ := knownMet_pruneOrphans fails _
  unpruned hdamaged _ := by
    show (l.pruneOrphans fails fate (knownMetAichRoots (readCatalog l.dir fails))).hashsets = _
    rw [hashsets_pruneOrphans]
    by_cases hruns : fate = .renamed ∧ fails .known2 = false
    · obtain hfails | hnone := h hruns.1 hdamaged
      · exact absurd (hfails.symm.trans hruns.2) (by simp)
      · rw [if_pos hruns]
        exact List.filter_eq_self.mpr fun e he => decide_eq_true (.inl (hnone e he))
    · rw [if_neg hruns]
  edited _ _ hes := by
    have hget : get (l.apply ⟨.prune, fails, fate⟩).dir .knownMet = get l.dir .knownMet :=
      knownMet_pruneOrphans fails _
    exact edited_of_same hget hes rfl

theorem survives_restock {content : Option Bytes} {index : List (Hash20 × Nat)} :
    l.Survives ⟨.restock content index, fails, fate⟩ := by
  have hget : get (l.apply ⟨.restock content index, fails, fate⟩).dir .knownMet =
      get l.dir .knownMet := by
    cases content with
    | none =>
      show get (FileMap.remove l.dir .known2) .knownMet = _
      rw [get_remove, if_neg (by decide)]
    | some b =>
      show get (FileMap.write l.dir .known2 b) .knownMet = _
      rw [get_write, if_neg (by decide)]
  exact ⟨fun _ => hget, fun _ hop => (nomatch hop), fun _ es hes => edited_of_same hget hes rfl⟩

end Steps

theorem Careful.survives (h : l.Careful s) : l.Survives s := by
  obtain ⟨op, fails, fate⟩ := s
  cases op with
  | persist sf date => exact survives_persist h
  | updateMeta hash rating comment => exact survives_updateMeta h
  | forget hash => exact survives_forget
  | prune => exact survives_prune h
  | restock content index => exact survives_restock

/-- Whatever the catalog holds and wherever the steps die, a run of careful steps edits the named
    entries and nothing else, and leaves a damaged catalog and its hashsets alone. -/
theorem library_survives (l : Library) (steps : List LibraryStep)
    (h : Runs.Throughout step Careful l steps) : Runs.Throughout step Survives l steps :=
  h.mono fun _ _ hok => hok.survives

/-- A five-byte file with this root. -/
def fiveByteFile (root : Hash20) : SharedFile :=
  ⟨.fill 16 7, 5, [0x66], [], "f", 0, "", some root⟩

def oneLeaf : Known2Entry :=
  ⟨List.replicate 20 9 ++ ([1, 0, 0, 0] ++ List.replicate 20 8), by decide⟩

/-- The store has one hashset, and the catalog this content. -/
def libraryOf (catalog : Option Bytes) : Library :=
  ⟨(catalog.map fun b => (.knownMet, b)).toList ++ [(.known2, writeKnown2Met [oneLeaf])],
    [(oneLeaf.root, 1)]⟩

def stepOf (op : LibraryOp) (fate : SaveFate) : LibraryStep := ⟨op, fun _ => false, fate⟩

/-- A file added and rated, the rating lost to a torn write and repeated, a forget that cannot read
    the catalog, and a prune. -/
def savedRun : List LibraryStep :=
  [stepOf (.persist (fiveByteFile oneLeaf.root) 42) .renamed,
    stepOf (.updateMeta (.fill 16 7) 4 "fine") (.torn 30),
    stepOf (.updateMeta (.fill 16 7) 4 "fine") .renamed,
    { stepOf (.forget (.fill 16 7)) .renamed with fails := (· = .knownMet) },
    stepOf .prune .renamed]

theorem savedRun_survives :
    (Runs.run step (libraryOf none) savedRun).map (fun w => (w.entries, w.hashsets)) =
      some (some [retag 4 "fine" ((fiveByteFile oneLeaf.root).entry 42)], [oneLeaf]) ∧
    Runs.Throughout step Survives (libraryOf none) savedRun :=
  ⟨by decide +kernel, library_survives _ _ (by decide +kernel)⟩

/-! ## A damaged catalog -/

/-- Adding a file to a damaged catalog leaves that file alone in it. -/
theorem persist_replaces_damaged {sf : SharedFile} {date : UInt32} {fails : LibraryFile → Bool}
    (h : l.Damaged ⟨.persist sf date, fails, .renamed⟩) (hfits : sf.Fits) :
    (l.apply ⟨.persist sf date, fails, .renamed⟩).entries = some [sf.entry date] := by
  have hcat : readCatalog l.dir fails = none := h.2
  have happly : l.apply ⟨.persist sf date, fails, .renamed⟩ =
      l.save .renamed (persistSharedFile none sf date) := hcat ▸ rfl
  have hempty : (none : Option KnownMet).getD emptyCatalog = emptyCatalog := rfl
  have hw : ∀ met, persistSharedFile none sf date = some met → met.Writable := fun _ =>
    writable_persist hempty writable_emptyCatalog fun _ => ⟨hfits, by decide⟩
  rw [happly]
  exact entries_save fun _ => hw _ rfl

/-- A prune over a damaged catalog takes every hashset of the index. -/
theorem prune_takes_indexed {fails : LibraryFile → Bool} (h : l.Damaged ⟨.prune, fails, .renamed⟩)
    (hstore : fails .known2 = false) :
    (l.apply ⟨.prune, fails, .renamed⟩).hashsets =
      l.hashsets.filter fun e => e.root ∉ l.index.map Prod.fst := by
  have hcat : readCatalog l.dir fails = none := h.2
  show (l.pruneOrphans fails .renamed (knownMetAichRoots (readCatalog l.dir fails))).hashsets = _
  rw [hashsets_pruneOrphans, if_pos ⟨rfl, hstore⟩, hcat]
  exact List.filter_congr fun e _ => decide_eq_decide.mpr (by simp [knownMetAichRoots])

/-- Over a catalog that does not parse, a new file's entry replaces the catalog, and a launch takes
    the hashset of a file that is still shared. -/
theorem damaged_catalog_costs_more :
    ¬Runs.Throughout step Survives (libraryOf (some [0x99]))
      [stepOf (.persist (fiveByteFile oneLeaf.root) 42) .renamed] ∧
    ((libraryOf (some [0x99])).apply
      (stepOf (.persist (fiveByteFile oneLeaf.root) 42) .renamed)).entries =
        some [(fiveByteFile oneLeaf.root).entry 42] ∧
    ¬Runs.Throughout step Survives (libraryOf (some [0x99])) [stepOf .prune .renamed] ∧
    ((libraryOf (some [0x99])).apply (stepOf .prune .renamed)).hashsets = [] := by
  refine ⟨fun h => ?_, by decide +kernel, fun h => ?_, by decide +kernel⟩
  · exact absurd (h.1.unreplaced (by decide +kernel)) (by decide +kernel)
  · exact absurd (h.1.unpruned (by decide +kernel) rfl) (by decide +kernel)

end Library

end PadMule.Engine
