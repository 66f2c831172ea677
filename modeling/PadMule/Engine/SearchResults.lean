import PadMule.Engine.LibraryAgrees

/-
  `mule-engine/src/server_messages.rs` and `search.rs`: the files that are offered to a server, and
  the page of a search result.

  Both carry the same record of a file. A page of the records of an offer reads back as these
  records, with each name cut where its length prefix ends (`parse_offered`); an offer of 2^32 files
  or more announces too few of them.
-/

namespace PadMule.Engine

open PadMule.Proto Readers

def OP_OFFERFILES : UInt8 := 0x15
def OP_SEARCHRESULT : UInt8 := 0x33

/-- The high half of a size, to a server. -/
def FT_FILESIZE_HI : UInt8 := 0x3A

namespace OfferedFile

def large (f : OfferedFile) : Bool := OLD_MAX_FILE_SIZE < f.size.toNat

/-- The two 32-bit tags of a server, not one of 64 bits. -/
def tags (f : OfferedFile) : List Tag :=
  [.ofId FT_FILENAME (.str (utf8 f.name)), .ofId FT_FILESIZE (.u32 f.size.toUInt32)] ++
    if f.large then [.ofId FT_FILESIZE_HI (.u32 (f.size >>> 32).toUInt32)] else []

def record (clientId : UInt32) (clientPort : UInt16) (f : OfferedFile) : Bytes :=
  f.hash.bytes ++ (writeU32 clientId ++ (writeU16 clientPort ++
    (writeU32 (if f.large then 3 else 2) ++ f.tags.flatMap writeTag)))

end OfferedFile

def buildOfferFiles (files : List OfferedFile) (clientId : UInt32) (clientPort : UInt16) : Packet :=
  ⟨PROT_EDONKEY, OP_OFFERFILES,
    writeU32 (UInt32.ofNat files.length) ++ files.flatMap (OfferedFile.record clientId clientPort)⟩

structure SearchResultFile where
  hash : Hash16
  id : UInt32
  port : UInt16
  tags : List Tag
deriving DecidableEq

def readOneResultFile : Reader SearchResultFile := do
  let hash ← readHash16
  let id ← readU32
  let port ← readU16
  let tagcount ← readU32
  let tags ← readMany readTag tagcount.toNat
  return { hash, id, port, tags }

structure SearchResultPage where
  files : List SearchResultFile
  more : Bool
deriving DecidableEq

/-- One byte that is left over says whether there is more. -/
def parseSearchResultPage (payload : Bytes) : Except IoError SearchResultPage := do
  let (count, r) ← readU32 payload
  let (files, r) ← readMany readOneResultFile count.toNat r
  return { files, more := r = [0x01] }

/-! ## An offer that is returned -/

/-- What a record of an offer reads back as. -/
def OfferedFile.returned (clientId : UInt32) (clientPort : UInt16) (f : OfferedFile) :
    SearchResultFile :=
  ⟨f.hash, clientId, clientPort, f.tags.map Tag.readBack⟩

theorem OfferedFile.length_tags (f : OfferedFile) :
    f.tags.length = (if f.large then 3 else 2 : UInt32).toNat := by
  unfold tags
  split_ifs <;> rfl

theorem reads_record (clientId : UInt32) (clientPort : UInt16) (f : OfferedFile) :
    Reads readOneResultFile (f.record clientId clientPort) (f.returned clientId clientPort) := by
  have htags : Reads (readMany readTag (if f.large then 3 else 2 : UInt32).toNat)
      (f.tags.flatMap writeTag) (f.tags.map Tag.readBack) := by
    rw [← f.length_tags]
    exact Reads.many_map fun t _ => reads_tag_any t
  exact (reads_hash16 f.hash).bind ((reads_u32 clientId).bind ((reads_u16 clientPort).bind
    ((reads_u32 _).bind htags.bind_pure)))

/-- As many records are read as the count in front of them says. -/
theorem parse_offered (files : List OfferedFile) (clientId : UInt32) (clientPort : UInt16)
    (trailing : Bytes) :
    ∃ page, parseSearchResultPage
        ((buildOfferFiles files clientId clientPort).payload ++ trailing) = .ok page ∧
      page.files = (files.take (files.length % 2 ^ 32)).map
        (OfferedFile.returned clientId clientPort) ∧
      (files.length < 2 ^ 32 → page.more = (trailing = [0x01])) := by
  set n := files.length % 2 ^ 32 with hn
  have hcount : (UInt32.ofNat files.length).toNat = (files.take n).length := by
    have hle : n ≤ files.length := Nat.mod_le _ _
    rw [UInt32.toNat_ofNat', List.length_take, Nat.min_eq_left hle]
  have hrecords : Reads (readMany readOneResultFile (UInt32.ofNat files.length).toNat)
      ((files.take n).flatMap (OfferedFile.record clientId clientPort))
      ((files.take n).map (OfferedFile.returned clientId clientPort)) := by
    rw [hcount]
    exact Reads.many_map fun f _ => reads_record clientId clientPort f
  have hsplit : files.flatMap (OfferedFile.record clientId clientPort) =
      (files.take n).flatMap (OfferedFile.record clientId clientPort) ++
        (files.drop n).flatMap (OfferedFile.record clientId clientPort) := by
    rw [← List.flatMap_append, List.take_append_drop]
  refine ⟨⟨_, decide ((files.drop n).flatMap (OfferedFile.record clientId clientPort) ++ trailing =
    [0x01])⟩, ?_, rfl, fun hfits => ?_⟩
  · rw [buildOfferFiles, hsplit, List.append_assoc, List.append_assoc, parseSearchResultPage,
      reads_u32]
    show (readMany _ _ _ >>= _) = _
    rw [hrecords]
    rfl
  · have hall : n = files.length := Nat.mod_eq_of_lt hfits
    rw [hall, List.drop_length, List.flatMap_nil, List.nil_append, decide_eq_true_eq]

end PadMule.Engine
