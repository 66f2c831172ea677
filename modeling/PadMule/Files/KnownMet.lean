import PadMule.Files.PartMet

/-
  `mule-files/src/known_met.rs`: the catalog of shared files.

  A header byte, a u32 count, then for each file its date, hash, counted part hashes and counted
  tags. Whatever reads can be written (`writable_of_readKnownMet`), so a catalog comes back as
  written exactly when its counts and lengths fit their fields (`readKnownMet_writeKnownMet_iff`).
-/

namespace PadMule.Files

open PadMule.Proto Readers

def MET_HEADER : UInt8 := 0x0E

/-- The header when any record holds a large file. -/
def MET_HEADER_WITH_LARGEFILES : UInt8 := 0x0F

structure KnownFileEntry where
  /-- mtime of the shared file at hashing time. -/
  date : UInt32
  fileHash : Hash16
  partHashes : List Hash16
  tags : List Tag
deriving DecidableEq

structure KnownMet where
  header : UInt8
  entries : List KnownFileEntry
deriving DecidableEq

def readKnownFileEntry : Reader KnownFileEntry := do
  let date ← readU32
  let hashset ← readHashset
  let tags ← readTags
  return ⟨date, hashset.1, hashset.2, tags⟩

def readKnownMetFrom : Reader KnownMet := do
  let header ← readU8
  if header ≠ MET_HEADER ∧ header ≠ MET_HEADER_WITH_LARGEFILES then
    throw (.badTag header)
  else
    let count ← readU32
    return ⟨header, ← readMany readKnownFileEntry count.toNat⟩

/-- `read_known_met`; bytes after the last record are ignored. -/
def readKnownMet (bytes : Bytes) : Except IoError KnownMet :=
  (readKnownMetFrom bytes).map Prod.fst

def writeKnownFileEntry (e : KnownFileEntry) : Bytes :=
  writeU32 e.date ++ (writeHashset e.fileHash e.partHashes ++ writeTags e.tags)

def writeKnownMet (m : KnownMet) : Bytes :=
  writeU8 m.header ++ (writeU32 (.ofNat m.entries.length) ++ m.entries.flatMap writeKnownFileEntry)

/-! ## What the writer can represent -/

structure KnownFileEntry.Writable (e : KnownFileEntry) : Prop where
  hashes_le : e.partHashes.length ≤ 65535
  count_lt : e.tags.length < 2 ^ 32
  tags : ∀ t ∈ e.tags, t.Writable

structure KnownMet.Writable (m : KnownMet) : Prop where
  header : m.header = MET_HEADER ∨ m.header = MET_HEADER_WITH_LARGEFILES
  count_lt : m.entries.length < 2 ^ 32
  entries : ∀ e ∈ m.entries, e.Writable

theorem reads_knownFileEntry {e : KnownFileEntry} (h : e.Writable) :
    Reads readKnownFileEntry (writeKnownFileEntry e) e :=
  (reads_u32 e.date).bind ((reads_hashset e.fileHash h.hashes_le).bind
    (reads_tags h.tags h.count_lt).bind_pure)

theorem reads_knownMet {m : KnownMet} (h : m.Writable) :
    Reads readKnownMetFrom (writeKnownMet m) m := by
  have hheader : ¬ (m.header ≠ MET_HEADER ∧ m.header ≠ MET_HEADER_WITH_LARGEFILES) := by
    rcases h.header with hh | hh <;> simp [hh]
  have hcount : (UInt32.ofNat m.entries.length).toNat = m.entries.length :=
    UInt32.toNat_ofNat_of_lt' h.count_lt
  refine (reads_u8 m.header).bind ?_
  rw [if_neg hheader]
  refine (reads_u32 _).bind ?_
  rw [hcount]
  exact (Reads.many fun e he => reads_knownFileEntry (h.entries e he)).bind_pure

theorem readKnownMet_writeKnownMet {m : KnownMet} (h : m.Writable) :
    readKnownMet (writeKnownMet m) = .ok m := by
  rw [readKnownMet, (reads_knownMet h).run_nil]
  rfl

/-! ## Whatever reads can be written -/

theorem writable_of_readKnownFileEntry {s s' : Bytes} {e : KnownFileEntry}
    (h : readKnownFileEntry s = .ok (e, s')) : e.Writable := by
  obtain ⟨date, s₁, -, h⟩ := ok_bind h
  obtain ⟨hashset, s₂, hhashset, h⟩ := ok_bind h
  obtain ⟨tags, s₃, htags, h⟩ := ok_bind h
  cases h
  exact ⟨length_of_readHashset hhashset, length_of_readTags htags, writable_of_readTags htags⟩

theorem writable_of_readKnownMet {bytes : Bytes} {m : KnownMet} (h : readKnownMet bytes = .ok m) :
    m.Writable := by
  obtain ⟨rest, hread⟩ := ok_map_fst h
  obtain ⟨header, s₁, -, hread⟩ := ok_bind hread
  by_cases hheader : header ≠ MET_HEADER ∧ header ≠ MET_HEADER_WITH_LARGEFILES
  · rw [if_pos hheader] at hread
    cases hread
  · rw [if_neg hheader] at hread
    obtain ⟨count, s₂, -, hread⟩ := ok_bind hread
    obtain ⟨entries, s₃, hmany, hread⟩ := ok_bind hread
    cases hread
    have hentries := forall_of_readMany (fun _ _ _ he => writable_of_readKnownFileEntry he) hmany
    refine ⟨?_, length_of_readMany hmany ▸ count.toNat_lt, hentries⟩
    by_contra hnot
    exact hheader (not_or.mp hnot)

theorem readKnownMet_writeKnownMet_iff (m : KnownMet) :
    readKnownMet (writeKnownMet m) = .ok m ↔ m.Writable :=
  ⟨writable_of_readKnownMet, readKnownMet_writeKnownMet⟩

end PadMule.Files
