import PadMule.Engine.SearchResults
import PadMule.Lib.SortedMap
import Mathlib.Data.String.Basic

/-
  `mule-engine/src/catalog.rs`: search hits folded into one row for each file.

  The hits of a hash are one group: they vote on the size and on the name, the most seen one wins,
  and of several that are seen as often the greatest. The size is read off FT_FILESIZE alone, so of
  a file that was offered to a server with a second tag for the high half only the low half is left
  (`offered_files_survive`).
-/

namespace PadMule.Engine.Catalog

open PadMule.Proto LibraryAgrees LossyUtf8

def FT_SOURCES : UInt8 := 0x15
def FT_COMPLETE_SOURCES : UInt8 := 0x30
def FT_FILETYPE : UInt8 := 0x03
def FT_MEDIA_ARTIST : UInt8 := 0xD0
def FT_MEDIA_ALBUM : UInt8 := 0xD1
def FT_MEDIA_TITLE : UInt8 := 0xD2
def FT_MEDIA_LENGTH : UInt8 := 0xD3
def FT_MEDIA_BITRATE : UInt8 := 0xD4
def FT_MEDIA_CODEC : UInt8 := 0xD5

/-! ## Keys -/

/-- Hashes in the order of their bytes. -/
instance : LinearOrder Hash16 :=
  .lift' (fun h => h.bytes.map UInt8.toNat) fun _ _ h =>
    Digest.ext_bytes (List.map_injective_iff.mpr (fun _ _ => UInt8.toNat_inj.mp) h)

instance instLinearOrderUInt64 : LinearOrder UInt64 where
  le_refl := UInt64.le_refl
  le_trans _ _ _ := UInt64.le_trans
  lt_iff_le_not_ge a b := by
    rw [UInt64.le_iff_toNat_le, UInt64.le_iff_toNat_le, UInt64.lt_iff_toNat_lt]
    omega
  le_antisymm _ _ := UInt64.le_antisymm
  le_total := UInt64.le_total
  toDecidableLE := inferInstance

/-- One more vote for `k`. -/
def vote {κ : Type} [LinearOrder κ] (k : κ) (counts : List (κ × Nat)) : List (κ × Nat) :=
  SortedMap.alter k (fun c => c.getD 0 + 1) counts

/-- `max_by_key` on the counts: the last of those that are seen most. -/
def mostSeen {κ : Type} (counts : List (κ × Nat)) : Option κ :=
  (counts.foldl (fun best e =>
    match best with
    | some b => if b.2 ≤ e.2 then some e else some b
    | none => some e) none).map Prod.fst

/-! ## Rows -/

/-- The rating is masked: `(value & 0xF) / 3`. -/
def decodeRating (tagValue : UInt64) : UInt8 := min ((tagValue &&& 0xF) / 3).toUInt8 5

inductive Trust where
  | ok
  | suspect (reason : String)
deriving DecidableEq

structure RankedFile where
  hash : Hash16
  origins : UInt8
  size : UInt64
  name : String
  sources : UInt32
  nameVariants : Nat
  trust : Trust
  completeSources : UInt32
  fileType : String
  artist : String
  album : String
  title : String
  lengthSecs : UInt32
  bitrate : UInt32
  codec : String
  rating : UInt8
deriving DecidableEq

structure Group where
  origins : UInt8 := 0
  sizes : List (UInt64 × Nat) := []
  names : List (String × Nat) := []
  sources : UInt32 := 0
  complete : UInt32 := 0
  types : List (String × Nat) := []
  artist : String := ""
  album : String := ""
  title : String := ""
  length : UInt32 := 0
  bitrate : UInt32 := 0
  codec : String := ""
  ratingSum : Nat := 0
  ratingCount : Nat := 0

/-- `to_ascii_lowercase` of what is behind the last dot. -/
def extension (name : String) : String :=
  String.ofList ((name.toList.reverse.takeWhile (· ≠ '.')).reverse.map Char.toLower)

def inferType (name : String) : String :=
  let ext := extension name
  if ext ∈ ["avi", "mkv", "mp4", "mov", "mpg", "mpeg", "wmv", "flv", "m4v", "webm", "vob", "ogm",
      "rm", "rmvb"] then "Video"
  else if ext ∈ ["mp3", "flac", "wav", "aac", "ogg", "m4a", "wma", "ac3", "ape", "mpc"] then "Audio"
  else if ext ∈ ["zip", "rar", "7z", "gz", "tar", "bz2", "iso", "img", "nrg"] then "Archive"
  else if ext ∈ ["pdf", "doc", "docx", "txt", "epub", "rtf", "odt", "chm"] then "Document"
  else if ext ∈ ["jpg", "jpeg", "png", "gif", "bmp", "webp", "tif", "tiff"] then "Image"
  else if ext ∈ ["exe", "msi", "dmg", "apk", "deb", "rpm"] then "Program"
  else "Other"

def normalizeType (tag : String) : String :=
  if tag = "Pro" then "Program"
  else if tag = "Doc" then "Document"
  else if tag = "Arc" ∨ tag = "Iso" then "Archive"
  else tag

/-- The first value that is not empty stays. -/
def setIfEmpty (dst : String) (v : Option String) : String :=
  if dst = "" then v.getD "" else dst

def Group.add (g : Group) (origin : UInt8) (f : SearchResultFile) : Group :=
  let complete := tagU64 f.tags FT_COMPLETE_SOURCES
  let src := ((tagU64 f.tags FT_SOURCES).or complete).getD 0
  let rating := decodeRating ((tagU64 f.tags FT_FILERATING).getD 0)
  { origins := g.origins ||| origin
    sizes := match tagU64 f.tags FT_FILESIZE with
      | some sz => if 0 < sz then vote sz g.sizes else g.sizes
      | none => g.sizes
    names := match tagString f.tags FT_FILENAME with
      | some n => vote n g.names
      | none => g.names
    sources := max g.sources src.toUInt32
    complete := max g.complete (complete.getD 0).toUInt32
    types := match tagString f.tags FT_FILETYPE with
      | some t => if t ≠ "" then vote t g.types else g.types
      | none => g.types
    artist := setIfEmpty g.artist (tagString f.tags FT_MEDIA_ARTIST)
    album := setIfEmpty g.album (tagString f.tags FT_MEDIA_ALBUM)
    title := setIfEmpty g.title (tagString f.tags FT_MEDIA_TITLE)
    length := if g.length = 0 then ((tagU64 f.tags FT_MEDIA_LENGTH).getD 0).toUInt32 else g.length
    bitrate :=
      if g.bitrate = 0 then ((tagU64 f.tags FT_MEDIA_BITRATE).getD 0).toUInt32 else g.bitrate
    codec := setIfEmpty g.codec (tagString f.tags FT_MEDIA_CODEC)
    -- only the rows that are rated are averaged
    ratingSum := g.ratingSum + rating.toNat
    ratingCount := if 0 < rating then g.ratingCount + 1 else g.ratingCount }

def Group.size (g : Group) : UInt64 := (mostSeen g.sizes).getD 0

def Group.name (g : Group) : String := (mostSeen g.names).getD ""

def Group.rating (g : Group) : UInt8 := (g.ratingSum / g.ratingCount).toUInt8

def Group.trust (g : Group) : Trust :=
  if 1 < g.sizes.length then .suspect "sources disagree on size for this hash"
  else if g.size = 0 then .suspect "no advertised size"
  else if g.rating = 1 then .suspect "rated fake"
  else if g.sources = 0 ∧ 3 < g.names.length then .suspect "many names, no sources"
  else .ok

def Group.row (hash : Hash16) (g : Group) : RankedFile :=
  { hash
    origins := g.origins
    size := g.size
    name := g.name
    sources := g.sources
    nameVariants := g.names.length
    trust := g.trust
    completeSources := g.complete
    fileType := ((mostSeen g.types).map normalizeType).getD (inferType g.name)
    artist := g.artist
    album := g.album
    title := g.title
    lengthSecs := g.length
    bitrate := g.bitrate
    codec := g.codec
    rating := g.rating }

/-! ## The order of the rows -/

/-- A suspect row counts for no more sources than this. -/
def SPAM_AVAIL_CAP : UInt32 := 5

def RankedFile.isTrusted (f : RankedFile) : Bool := f.trust = .ok

def rankedSources (f : RankedFile) : UInt32 :=
  match f.trust with
  | .ok => f.sources
  | .suspect _ => min f.sources SPAM_AVAIL_CAP

def compareRows (a b : RankedFile) : Ordering :=
  (compare b.isTrusted a.isTrusted).then
    ((compare (rankedSources b) (rankedSources a)).then (compare a.name b.name))

/-- One more hit: the group of its hash takes it in. -/
def addHit (origins : List UInt8) (groups : List (Hash16 × Group)) (hit : SearchResultFile × Nat) :
    List (Hash16 × Group) :=
  SortedMap.alter hit.1.hash
    (fun g => (g.getD {}).add (origins[hit.2]?.getD 0) hit.1) groups

def catalogWithOrigins (files : List SearchResultFile) (origins : List UInt8) : List RankedFile :=
  let groups := files.zipIdx.foldl (addHit origins) []
  (groups.map fun e => e.2.row e.1).mergeSort fun a b => compareRows a b ≠ .gt

def catalog (files : List SearchResultFile) : List RankedFile := catalogWithOrigins files []

/-! ## Hits of different files -/

theorem foldl_addHit {origins : List UInt8} {hits : List (SearchResultFile × Nat)}
    {groups : List (Hash16 × Group)}
    (h : (groups.map Prod.fst ++ hits.map fun hit => hit.1.hash).Nodup) :
    (hits.foldl (addHit origins) groups).Perm (groups ++ hits.map fun hit =>
      (hit.1.hash, ({} : Group).add (origins[hit.2]?.getD 0) hit.1)) := by
  induction hits generalizing groups with
  | nil =>
    rw [List.map_nil, List.append_nil]
    exact List.Perm.refl _
  | cons hit hits ih =>
    have hnew : ∀ e ∈ groups, e.1 ≠ hit.1.hash := fun e he heq =>
      List.disjoint_of_nodup_append h (List.mem_map_of_mem he) (by simp [heq])
    set e : Hash16 × Group :=
      (hit.1.hash, ({} : Group).add (origins[hit.2]?.getD 0) hit.1) with he
    have hadded : (addHit origins groups hit).Perm (e :: groups) := by
      rw [addHit, SortedMap.alter_of_absent _ hnew]
      exact SortedMap.perm_insert _ hnew
    have hkeys := (hadded.map Prod.fst).append_right (hits.map fun hit => hit.1.hash)
    have hnodup := hkeys.nodup_iff.mpr (List.nodup_middle.mp h)
    refine (ih hnodup).trans ((hadded.append_right _).trans ?_)
    rw [List.map_cons, ← he]
    exact List.perm_middle.symm

/-- Hits of pairwise different hashes have a row each. -/
theorem catalog_perm {files : List SearchResultFile}
    (h : (files.map SearchResultFile.hash).Nodup) :
    (catalog files).Perm (files.map fun f => (({} : Group).add 0 f).row f.hash) := by
  have hfst : files.zipIdx.map Prod.fst = files := List.zipIdx_map_fst 0 files
  have hhash : files.zipIdx.map (fun hit => hit.1.hash) = files.map SearchResultFile.hash :=
    (List.map_map (g := SearchResultFile.hash)).symm.trans (congrArg _ hfst)
  have hgroups : (files.zipIdx.foldl (addHit []) []).Perm _ := foldl_addHit (by
    rw [List.map_nil, List.nil_append, hhash]
    exact h)
  refine (List.mergeSort_perm _ _).trans ((hgroups.map _).trans ?_)
  rw [List.nil_append, List.map_map]
  nth_rewrite 2 [← hfst]
  rw [List.map_map]
  exact List.Perm.refl _

/-! ## Files that are offered and found -/

section Returned

variable (clientId : UInt32) (clientPort : UInt16) (f : OfferedFile)

/-- The group of a file that is returned once. -/
def returnedGroup : Group := ({} : Group).add 0 (f.returned clientId clientPort)

theorem tagU64_returned :
    tagU64 (f.returned clientId clientPort).tags FT_FILESIZE =
      some f.size.toUInt32.toUInt64 := by
  simp [OfferedFile.returned, OfferedFile.tags, tagU64, Tag.readBack, Tag.ofId, TagName.readBack,
    TagValue.readBack, FT_FILENAME, FT_FILESIZE]

theorem tagString_returned :
    tagString (f.returned clientId clientPort).tags FT_FILENAME =
      some (fromUtf8Lossy ((utf8 f.name).take 65535)) := by
  simp [OfferedFile.returned, OfferedFile.tags, tagString, tagStr, Tag.readBack, Tag.ofId,
    TagName.readBack, TagValue.readBack]

/-- The low half of the size is what a row shows. -/
theorem returned_size : (returnedGroup clientId clientPort f).size = f.size.toUInt32.toUInt64 := by
  rw [returnedGroup, Group.size, Group.add, tagU64_returned]
  dsimp only
  split_ifs with hpos
  · rfl
  · exact (UInt64.le_antisymm (not_lt.mp hpos) (UInt64.zero_le)).symm

theorem returned_name :
    (returnedGroup clientId clientPort f).name = fromUtf8Lossy ((utf8 f.name).take 65535) := by
  rw [returnedGroup, Group.name, Group.add, tagString_returned]
  rfl

end Returned

/-- A name that its tag holds, or one that is cut inside a U+FFFD at its end. -/
def NameReturns (name : String) : Prop :=
  (utf8 name).length ≤ 65535 ∨
    ∃ front, name = String.ofList (front ++ [REPLACEMENT]) ∧
      (utf8 (String.ofList front)).length < 65535

theorem fromUtf8Lossy_take (name : String) :
    fromUtf8Lossy ((utf8 name).take 65535) = name ↔ NameReturns name := by
  obtain ⟨cs, rfl⟩ : ∃ cs, name = String.ofList cs := ⟨name.toList, String.ofList_toList.symm⟩
  simp only [NameReturns, utf8_ofList]
  by_cases hfits : (utf8Bytes cs).length ≤ 65535
  · rw [List.take_of_length_le hfits, ← utf8_ofList, fromUtf8Lossy_utf8]
    exact iff_of_true rfl (.inl (by rwa [utf8_ofList]))
  · rw [fromUtf8Lossy_take_iff (not_le.mp hfits), or_iff_right hfits]
    simp only [String.ofList_inj]

theorem toUInt64_toUInt32 (size : UInt64) :
    size.toUInt32.toUInt64 = size ↔ size.toNat < 2 ^ 32 := by
  rw [← UInt64.toNat_inj, UInt32.toNat_toUInt64, UInt64.toNat_toUInt32]
  have hmod : size.toNat % 2 ^ 32 < 2 ^ 32 := Nat.mod_lt _ (by decide)
  constructor
  · intro heq
    omega
  · exact Nat.mod_eq_of_lt

/-- Every file has the row of its hash, size and name, and there are no other rows. -/
def Survives (files : List OfferedFile) (clientId : UInt32) (clientPort : UInt16)
    (trailing : Bytes) : Prop :=
  ∃ page, parseSearchResultPage ((buildOfferFiles files clientId clientPort).payload ++ trailing) =
      .ok page ∧
    ((catalog page.files).map fun r => (r.hash, r.size, r.name)).Perm
      (files.map fun f => (f.hash, f.size, f.name))

theorem rows_of_offered {files : List OfferedFile} (clientId : UInt32) (clientPort : UInt16)
    (h : (files.map OfferedFile.hash).Nodup) :
    ((catalog (files.map (OfferedFile.returned clientId clientPort))).map
        fun r => (r.hash, r.size, r.name)).Perm
      (files.map fun f =>
        (f.hash, f.size.toUInt32.toUInt64, fromUtf8Lossy ((utf8 f.name).take 65535))) := by
  have hnodup : ((files.map (OfferedFile.returned clientId clientPort)).map
      SearchResultFile.hash).Nodup := by
    rw [List.map_map]
    exact h
  refine ((catalog_perm hnodup).map _).trans ?_
  rw [List.map_map, List.map_map]
  refine List.Perm.of_eq (List.map_congr_left fun f _ => ?_)
  rw [← returned_size clientId clientPort f, ← returned_name clientId clientPort f]
  rfl

/-- Both sides have a row for each key, so the rows of a key are the same. -/
theorem eq_of_perm_keyed {α κ β : Type} {key : α → κ} {a b : α → β} {l : List α}
    (hnodup : (l.map key).Nodup)
    (h : (l.map fun x => (key x, a x)).Perm (l.map fun x => (key x, b x))) {x : α} (hx : x ∈ l) :
    a x = b x := by
  obtain ⟨y, hy, heq⟩ := List.mem_map.mp (h.subset (List.mem_map_of_mem hx))
  obtain ⟨hkey, hval⟩ := Prod.mk.inj heq
  obtain rfl := List.inj_on_of_nodup_map hnodup hy hx hkey
  exact hval.symm

theorem survives_of_fits {files : List OfferedFile} {clientId : UInt32} {clientPort : UInt16}
    {trailing : Bytes} (hdistinct : (files.map OfferedFile.hash).Nodup)
    (hcount : files.length < 2 ^ 32)
    (hfits : ∀ f ∈ files, f.size.toNat < 2 ^ 32 ∧ NameReturns f.name) :
    Survives files clientId clientPort trailing := by
  obtain ⟨page, hpage, hfiles, -⟩ := parse_offered files clientId clientPort trailing
  rw [Nat.mod_eq_of_lt hcount, List.take_length] at hfiles
  refine ⟨page, hpage, ?_⟩
  rw [hfiles]
  refine (rows_of_offered clientId clientPort hdistinct).trans ?_
  refine List.Perm.of_eq (List.map_congr_left fun f hf => ?_)
  obtain ⟨hsize, hname⟩ := hfits f hf
  rw [(toUInt64_toUInt32 f.size).mpr hsize, (fromUtf8Lossy_take f.name).mpr hname]

theorem fits_of_survives {files : List OfferedFile} {clientId : UInt32} {clientPort : UInt16}
    {trailing : Bytes} (hdistinct : (files.map OfferedFile.hash).Nodup)
    (h : Survives files clientId clientPort trailing) :
    files.length < 2 ^ 32 ∧ ∀ f ∈ files, f.size.toNat < 2 ^ 32 ∧ NameReturns f.name := by
  obtain ⟨page, hpage, hrows⟩ := h
  obtain ⟨page', hpage', hfiles, -⟩ := parse_offered files clientId clientPort trailing
  obtain rfl : page' = page := Except.ok.inj (hpage'.symm.trans hpage)
  rw [hfiles] at hrows
  have hfirst : ((files.take (files.length % 2 ^ 32)).map OfferedFile.hash).Nodup :=
    hdistinct.sublist ((List.take_sublist _ _).map _)
  have hboth := (rows_of_offered clientId clientPort hfirst).symm.trans hrows
  -- no row is missing, so the count has not wrapped
  have hcount : files.length < 2 ^ 32 := by
    have hlen := hboth.length_eq
    rw [List.length_map, List.length_map, List.length_take] at hlen
    have hmod : files.length % 2 ^ 32 < 2 ^ 32 := Nat.mod_lt _ (by decide)
    omega
  rw [Nat.mod_eq_of_lt hcount, List.take_length] at hboth
  refine ⟨hcount, fun f hf => ?_⟩
  obtain ⟨hsize, hname⟩ := Prod.mk.inj (eq_of_perm_keyed hdistinct hboth hf)
  exact ⟨(toUInt64_toUInt32 f.size).mp hsize, (fromUtf8Lossy_take f.name).mp hname⟩

/-- Offered, returned by a server and parsed, the files come out of the catalog as they are, if
    and only if their number and each size fit in 32 bits and each name fits in its tag. -/
theorem offered_files_survive (files : List OfferedFile) (clientId : UInt32)
    (clientPort : UInt16) (trailing : Bytes) (hdistinct : (files.map OfferedFile.hash).Nodup) :
    Survives files clientId clientPort trailing ↔
      files.length < 2 ^ 32 ∧ ∀ f ∈ files, f.size.toNat < 2 ^ 32 ∧ NameReturns f.name :=
  ⟨fits_of_survives hdistinct, fun h => survives_of_fits hdistinct h.1 h.2⟩

def smallFile : OfferedFile := ⟨Digest.fill 16 0x11, "a.iso", 4294967295⟩

/-- Five bytes more than the low half can say. -/
def largeFile : OfferedFile := ⟨Digest.fill 16 0x22, "b.iso", 4294967301⟩

/-- A file at the end of the 32 bits is found as it is. -/
theorem offered_files_survive_small :
    Survives [smallFile] 0xFBFBFBFB 0xFBFB [] :=
  (offered_files_survive [smallFile] 0xFBFBFBFB 0xFBFB [] (by decide)).mpr
    ⟨by decide, fun f hf => by
      obtain rfl := List.mem_singleton.mp hf
      exact ⟨by decide, .inl (by decide)⟩⟩

/-- A file of 4 GiB and five bytes is found as one of five bytes. -/
theorem large_size_is_cut :
    ¬ ∀ (files : List OfferedFile) (clientId : UInt32) (clientPort : UInt16) (trailing : Bytes),
      (∀ f ∈ files, f.size ≠ 0) → (files.map OfferedFile.hash).Nodup →
        Survives files clientId clientPort trailing := by
  intro h
  have hsurvives := h [smallFile, largeFile] 0xFBFBFBFB 0xFBFB [] (by decide) (by decide)
  have hfits := (fits_of_survives (by decide) hsurvives).2 largeFile (by simp)
  exact absurd hfits.1 (by decide)

end PadMule.Engine.Catalog
