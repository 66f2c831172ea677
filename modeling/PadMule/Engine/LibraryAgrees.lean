import PadMule.Engine.SharedLibrary
import PadMule.Engine.UniqueDest

/-
  `mule-engine/src/engine.rs` and `known2_store.rs`: the live library, the catalog that it is
  loaded from at the next start, and the store of hashsets.

  A finished download joins the live library in any case, and the catalog only if no row there has
  its hash; removing a file from the library removes all rows of its hash, and the hashset of its
  root, whoever else has it. A row whose file was missing at the start stays in the catalog and is
  not live. So the three agree in a run where each row that a finished file meets is its own, each
  row that is rated is that of the rated file, no row or hashset goes that a remaining file needs,
  and no file comes to stand where a row claims one that is not live (`library_agrees`).
-/

namespace PadMule.Engine.LibraryAgrees

open PadMule.Proto PadMule.Files FileMap LossyUtf8

variable (join : String → String)

/-! ## The catalog -/

/-- `tag_str` -/
def tagString (tags : List Tag) (id : UInt8) : Option String :=
  (tagStr tags id).map fromUtf8Lossy

def tagU64 (tags : List Tag) (id : UInt8) : Option UInt64 :=
  tags.findSome? fun t =>
    match t.name, t.value with
    | .id n, .u8 v => if n = id then some v.toUInt64 else none
    | .id n, .u16 v => if n = id then some v.toUInt64 else none
    | .id n, .u32 v => if n = id then some v.toUInt64 else none
    | .id n, .u64 v => if n = id then some v else none
    | _, _ => none

/-- The file that a row of the catalog stands for. -/
def rowFile (e : KnownFileEntry) : Option SharedFile := do
  let name ← tagString e.tags FT_FILENAME
  let size ← tagU64 e.tags FT_FILESIZE
  return {
    hash := e.fileHash
    size
    name := utf8 name
    partHashes := e.partHashes
    path := join name
    rating := (min ((tagU64 e.tags FT_FILERATING).getD 0) 5).toUInt8
    comment := (tagString e.tags FT_FILECOMMENT).getD ""
    aichRoot := (tagStr e.tags FT_AICH_HASH).bind aichFromBase32 }

/-- The lengths of the files on disk. -/
abbrev Files := Dir String UInt64

/-- `metadata(&path)` is there, and `m.len() == size`. -/
def present (disk : Files) (f : SharedFile) : Bool := get disk f.path = some f.size

/-- What reads as a catalog. -/
def catalog (knownMet : Option Bytes) : Option KnownMet :=
  knownMet.bind fun b => (readKnownMet b).toOption

def rows (knownMet : Option Bytes) : List KnownFileEntry :=
  ((catalog knownMet).map KnownMet.entries).getD []

/-- The files of the catalog, on disk or not. -/
def claims (knownMet : Option Bytes) : List SharedFile := (rows knownMet).filterMap (rowFile join)

def loadSharedLibrary (knownMet : Option Bytes) (disk : Files) : List SharedFile :=
  (claims join knownMet).filter (present disk)

/-- `known.met` after a catalog was written over it, where there was one to write. -/
def saved (knownMet : Option Bytes) (new : Option KnownMet) : Option Bytes :=
  match new with
  | none => knownMet
  | some met => some (writeKnownMet met)

/-! ## The store of hashsets -/

structure Known2Store where
  file : Option Bytes
  index : List (Hash20 × Nat)

namespace Known2Store

def load (file : Option Bytes) : Known2Store :=
  match file.getD [] with
  | [] => ⟨some [KNOWN2_MET_VERSION], []⟩
  | bytes =>
    match scanKnown2Met bytes with
    | .ok ix => ⟨some (bytes.take ix.validLen), ix.byRoot⟩
    | .error _ => ⟨file, []⟩

def has (s : Known2Store) (root : Hash20) : Bool := (s.index.lookup root).isSome

/-- `none` is an error, of a file that has another version. -/
def append (s : Known2Store) (e : Known2Entry) : Option Known2Store :=
  if s.has e.root then some s
  else
    match s.file.getD [] with
    | [] => some ⟨some (KNOWN2_MET_VERSION :: e.bytes), (e.root, 1) :: s.index⟩
    | version :: rest =>
      if version ≠ KNOWN2_MET_VERSION then none
      else
        let existing := version :: rest
        some ⟨some (existing ++ e.bytes), (e.root, existing.length) :: s.index⟩

def remove (s : Known2Store) (root : Hash20) : Known2Store :=
  if !s.has root then s
  else
    match s.file with
    | none => s
    | some bytes =>
      match removeKnown2Entry bytes root with
      | none => s
      | some out => ⟨some out, ((scanKnown2Met out).toOption.map Known2Index.byRoot).getD []⟩

/-- The index has the roots of the file, or the file is foreign and the index empty. -/
def Sound (s : Known2Store) : Prop :=
  (∃ es, s.file = some (writeKnown2Met es) ∧ ∀ r, s.has r = true ↔ r ∈ es.map Known2Entry.root) ∨
    ∃ version rest, s.file = some (version :: rest) ∧ version ≠ KNOWN2_MET_VERSION ∧ s.index = []

end Known2Store

/-! ## The engine -/

structure World where
  disk : Files
  knownMet : Option Bytes
  known2 : Known2Store
  shared : List SharedFile
  /-- The roots whose hashset has been in the store. -/
  seen : List Hash20

inductive Op where
  /-- A download of this name that has been verified, with the hashset of its content. -/
  | finishDownload (hash : Hash16) (size : UInt64) (name : Paths.Name) (partHashes : List Hash16)
      (aich : Option Known2Entry) (date : UInt32)
  | unshareFile (hash : Hash16)
  | deleteSharedFile (hash : Hash16)
  | verifySharedLibrary
  | setFileRating (hash : Hash16) (rating : UInt8) (comment : List Char)
  /-- The user deletes a file, or puts one of that length there. -/
  | userFile (path : String) (len : Option UInt64)

namespace World

/-- After `start` has loaded the library. -/
def start (disk : Files) (knownMet known2 : Option Bytes) : World :=
  let store := Known2Store.load known2
  ⟨disk, knownMet, store, loadSharedLibrary join knownMet disk, store.index.map Prod.fst⟩

/-- The name that a finished file gets. -/
def destName (w : World) (name : Paths.Name) : String :=
  String.ofList (uniqueDest (fun n => (get w.disk (join (String.ofList n))).isSome)
    (safeFilename name))

/-- The store with the hashset, and the root of the file. -/
def keepHashset (w : World) (aich : Option Known2Entry) : Known2Store × Option Hash20 :=
  match aich with
  | none => (w.known2, none)
  | some e =>
    match w.known2.append e with
    | some store => (store, some e.root)
    | none => (w.known2, none)

/-- The file as it joins the library. -/
def finishedFile (w : World) (hash : Hash16) (size : UInt64) (name : Paths.Name)
    (partHashes : List Hash16) (aichRoot : Option Hash20) : SharedFile :=
  let onDisk := w.destName join name
  { hash, size, name := utf8 onDisk, partHashes, path := join onDisk, rating := 0, comment := ""
    aichRoot }

def finishDownload (w : World) (hash : Hash16) (size : UInt64) (name : Paths.Name)
    (partHashes : List Hash16) (aich : Option Known2Entry) (date : UInt32) : World :=
  let (known2, aichRoot) := w.keepHashset aich
  let sf := w.finishedFile join hash size name partHashes aichRoot
  { disk := write w.disk sf.path size
    knownMet := saved w.knownMet (persistSharedFile (catalog w.knownMet) sf date)
    known2
    shared := w.shared ++ [sf]
    seen := aichRoot.toList ++ w.seen }

def firstShared (w : World) (hash : Hash16) : Option SharedFile :=
  w.shared.find? fun f => f.hash = hash

def forget (knownMet : Option Bytes) (hash : Hash16) : Option Bytes :=
  saved knownMet (forgetSharedFile (catalog knownMet) hash)

def unshareFile (w : World) (hash : Hash16) : World :=
  match w.firstShared hash with
  | none => w
  | some f =>
    { w with
      shared := w.shared.filter fun g => g.hash ≠ hash
      knownMet := forget w.knownMet hash
      known2 := f.aichRoot.elim w.known2 w.known2.remove }

def deleteSharedFile (w : World) (hash : Hash16) : World :=
  match w.firstShared hash with
  | none => w
  | some f =>
    let w := w.unshareFile hash
    { w with disk := remove w.disk f.path }

def verifySharedLibrary (w : World) : World :=
  let missing := w.shared.filter fun f => !present w.disk f
  { w with
    shared := w.shared.filter (present w.disk)
    knownMet := (missing.map SharedFile.hash).foldl forget w.knownMet
    known2 := (missing.reverse.filterMap SharedFile.aichRoot).foldl Known2Store.remove w.known2 }

/-- eMule's MAXFILECOMMENTLEN. -/
def MAX_FILE_COMMENT_LEN : Nat := 50

def setFileRating (w : World) (hash : Hash16) (rating : UInt8) (comment : List Char) : World :=
  let rating := min rating 5
  let comment := String.ofList (comment.take MAX_FILE_COMMENT_LEN)
  match w.shared.findIdx? fun f => f.hash = hash with
  | none => w
  | some i =>
    { w with
      shared := w.shared.modify i fun f => { f with rating, comment }
      knownMet := saved w.knownMet
        (updateSharedFileMeta (catalog w.knownMet) hash rating comment) }

def userFile (w : World) (path : String) (len : Option UInt64) : World :=
  { w with disk := len.elim (remove w.disk path) (write w.disk path) }

def apply (w : World) : Op → World
  | .finishDownload hash size name partHashes aich date =>
    w.finishDownload join hash size name partHashes aich date
  | .unshareFile hash => w.unshareFile hash
  | .deleteSharedFile hash => w.deleteSharedFile hash
  | .verifySharedLibrary => w.verifySharedLibrary
  | .setFileRating hash rating comment => w.setFileRating hash rating comment
  | .userFile path len => w.userFile path len

def step (w : World) (op : Op) : Option World := some (w.apply join op)

/-! ## Agreement -/

/-- A start would load the live files that are on disk, and the hashsets of the live files are
    still there. -/
structure Agrees (w : World) : Prop where
  loaded : (loadSharedLibrary join w.knownMet w.disk).Perm (w.shared.filter (present w.disk))
  hashsets : ∀ f ∈ w.shared, ∀ r ∈ f.aichRoot, r ∈ w.seen → w.known2.has r = true

/-- What the catalog claims at a path and a length is live. -/
def NothingElseAt (w : World) (path : String) (len : UInt64) : Prop :=
  ((claims join w.knownMet).filter fun f => f.path = path ∧ f.size = len).Perm
    (w.shared.filter fun f => f.path = path ∧ f.size = len)

/-- What the catalog claims there is live, but for one row, and that is of this file. -/
def ClaimedAlready (w : World) (sf : SharedFile) : Prop :=
  ((claims join w.knownMet).filter fun f => f.path = sf.path ∧ f.size = sf.size).Perm
    (sf :: w.shared.filter fun f => f.path = sf.path ∧ f.size = sf.size)

/-- The store has no hashset for `f` that `g` needs. -/
def Unneeded (w : World) (f g : SharedFile) : Prop :=
  f.aichRoot = g.aichRoot → f.aichRoot.any w.known2.has = false

/-- A row for the file fits the catalog. -/
def Fits (w : World) (sf : SharedFile) : Prop :=
  sf.name.length ≤ 65535 ∧ sf.partHashes.length ≤ 65535 ∧ (rows w.knownMet).length + 1 < 2 ^ 32

def Allowed (w : World) : Op → Prop
  | .finishDownload hash size name partHashes aich _ =>
    let sf := w.finishedFile join hash size name partHashes (w.keepHashset aich).2
    if ∃ e ∈ rows w.knownMet, e.fileHash = hash then w.ClaimedAlready join sf
    else w.NothingElseAt join sf.path sf.size ∧ w.Fits sf
  | .unshareFile hash | .deleteSharedFile hash =>
    ∀ f ∈ w.firstShared hash, ∀ g ∈ w.shared, g.hash ≠ hash → w.Unneeded f g
  | .verifySharedLibrary =>
    ∀ f ∈ w.shared, present w.disk f = false → ∀ g ∈ w.shared, present w.disk g = true →
      g.hash ≠ f.hash ∧ w.Unneeded f g
  | .setFileRating hash _ _ =>
    ∀ f ∈ w.firstShared hash,
      ∃ e ∈ (rows w.knownMet).find? fun e => e.fileHash = hash,
        rowFile join e = some f ∧ e.tags.length + 2 < 2 ^ 32
  | .userFile _ none => True
  | .userFile path (some len) => w.NothingElseAt join path len

instance (w : World) (f g : SharedFile) : Decidable (w.Unneeded f g) :=
  inferInstanceAs (Decidable (_ → _))

instance (w : World) (path : String) (len : UInt64) : Decidable (w.NothingElseAt join path len) :=
  inferInstanceAs (Decidable (List.Perm _ _))

instance (w : World) (sf : SharedFile) : Decidable (w.ClaimedAlready join sf) :=
  inferInstanceAs (Decidable (List.Perm _ _))

instance (w : World) (sf : SharedFile) : Decidable (w.Fits sf) :=
  inferInstanceAs (Decidable (_ ∧ _ ∧ _))

instance (w : World) : (op : Op) → Decidable (w.Allowed join op)
  | .finishDownload .. => inferInstanceAs (Decidable (ite _ _ _))
  | .unshareFile hash | .deleteSharedFile hash =>
    inferInstanceAs (Decidable (∀ f ∈ w.firstShared hash, ∀ g ∈ w.shared, g.hash ≠ hash →
      w.Unneeded f g))
  | .verifySharedLibrary =>
    inferInstanceAs (Decidable (∀ f ∈ w.shared, present w.disk f = false → ∀ g ∈ w.shared,
      present w.disk g = true → g.hash ≠ f.hash ∧ w.Unneeded f g))
  | .setFileRating hash _ _ =>
    inferInstanceAs (Decidable (∀ f ∈ w.firstShared hash,
      ∃ e ∈ (rows w.knownMet).find? fun e => e.fileHash = hash,
        rowFile join e = some f ∧ e.tags.length + 2 < 2 ^ 32))
  | .userFile _ none => .isTrue trivial
  | .userFile path (some len) => inferInstanceAs (Decidable (w.NothingElseAt join path len))

end World

/-! ## The rows after a save -/

theorem writable_catalog {knownMet : Option Bytes} {met : KnownMet}
    (h : catalog knownMet = some met) : met.Writable := by
  obtain ⟨bytes, -, hread⟩ := Option.bind_eq_some_iff.mp h
  cases hresult : readKnownMet bytes with
  | error e =>
    rw [hresult] at hread
    cases hread
  | ok met' =>
    rw [hresult] at hread
    obtain rfl := Option.some.inj hread
    exact writable_of_readKnownMet hresult

theorem rows_saved (knownMet : Option Bytes) {met : KnownMet} (h : met.Writable) :
    rows (saved knownMet (some met)) = met.entries := by
  show rows (some (writeKnownMet met)) = _
  rw [rows, catalog, Option.bind_some, readKnownMet_writeKnownMet h]
  rfl

theorem rows_of_catalog {knownMet : Option Bytes} {met : KnownMet}
    (h : catalog knownMet = some met) : rows knownMet = met.entries := by
  rw [rows, h]
  rfl

theorem rows_of_none {knownMet : Option Bytes} (h : catalog knownMet = none) :
    rows knownMet = [] := by
  rw [rows, h]
  rfl

/-- A new hash adds a row. -/
theorem rows_persist {knownMet : Option Bytes} {sf : SharedFile}
    (hnew : ∀ e ∈ rows knownMet, e.fileHash ≠ sf.hash) (hfits : sf.Fits)
    (hcount : (rows knownMet).length + 1 < 2 ^ 32) (date : UInt32) :
    rows (saved knownMet (persistSharedFile (catalog knownMet) sf date)) =
      rows knownMet ++ [sf.entry date] := by
  obtain ⟨met, hmet, hw, hrows⟩ : ∃ met, (catalog knownMet).getD emptyCatalog = met ∧
      met.Writable ∧ met.entries = rows knownMet := by
    cases hcatalog : catalog knownMet with
    | none => exact ⟨emptyCatalog, rfl, writable_emptyCatalog, (rows_of_none hcatalog).symm⟩
    | some met => exact ⟨met, rfl, writable_catalog hcatalog, (rows_of_catalog hcatalog).symm⟩
  rw [← hrows] at hnew hcount ⊢
  have hedited := @edited_persist (catalog knownMet) met sf date hmet
  cases hpersist : persistSharedFile (catalog knownMet) sf date with
  | none =>
    rw [hpersist] at hedited
    rcases hedited with ⟨⟨e, he, hsame⟩, -⟩ | ⟨-, hentries⟩
    · exact absurd hsame (hnew e he)
    · exact absurd (congrArg List.length hentries) (by simp)
  | some met' =>
    rw [hpersist] at hedited
    have hw' := writable_persist hmet hw (fun _ => ⟨hfits, hcount⟩) hpersist
    rw [rows_saved _ hw']
    rcases hedited with ⟨⟨e, he, hsame⟩, -⟩ | ⟨-, hentries⟩
    · exact absurd hsame (hnew e he)
    · exact hentries

/-- A known hash adds none. -/
theorem persist_known {knownMet : Option Bytes} {sf : SharedFile}
    (hknown : ∃ e ∈ rows knownMet, e.fileHash = sf.hash) (date : UInt32) :
    saved knownMet (persistSharedFile (catalog knownMet) sf date) = knownMet := by
  obtain ⟨e, he, hhash⟩ := hknown
  cases hcatalog : catalog knownMet with
  | none =>
    rw [rows_of_none hcatalog] at he
    cases he
  | some met =>
    rw [rows_of_catalog hcatalog] at he
    have hany : met.entries.any (fun e => e.fileHash = sf.hash) = true :=
      List.any_eq_true.mpr ⟨e, he, decide_eq_true hhash⟩
    rw [persistSharedFile, Option.getD_some, if_pos hany]
    rfl

theorem rows_forget (knownMet : Option Bytes) (hash : Hash16) :
    rows (World.forget knownMet hash) = (rows knownMet).filter fun e => e.fileHash ≠ hash := by
  rw [World.forget]
  cases hcatalog : catalog knownMet with
  | none =>
    rw [rows_of_none hcatalog]
    exact rows_of_none hcatalog
  | some met =>
    rw [rows_of_catalog hcatalog]
    have hedited : ((forgetSharedFile (some met) hash).map KnownMet.entries).getD met.entries =
        met.entries.filter fun e => e.fileHash ≠ hash := edited_forget
    cases hforget : forgetSharedFile (some met) hash with
    | none =>
      rw [hforget] at hedited
      exact (rows_of_catalog hcatalog).trans hedited
    | some met' =>
      rw [hforget] at hedited
      rw [rows_saved _ (writable_forget (writable_catalog hcatalog) hforget)]
      exact hedited

theorem rows_forget_all (hashes : List Hash16) (knownMet : Option Bytes) :
    rows (hashes.foldl World.forget knownMet) =
      (rows knownMet).filter fun e => e.fileHash ∉ hashes := by
  induction hashes generalizing knownMet with
  | nil => simp
  | cons hash hashes ih =>
    rw [List.foldl_cons, ih, rows_forget, List.filter_filter]
    congr 1
    funext e
    simp [Bool.and_comm]

/-- The first row of the hash is re-tagged. -/
theorem rows_update {knownMet : Option Bytes} {hash : Hash16} {rating : UInt8} {comment : String}
    {e : KnownFileEntry} (hfind : (rows knownMet).find? (fun e => e.fileHash = hash) = some e)
    (hcomment : (utf8 comment).length ≤ 65535)
    (hcount : (retag rating comment e).tags.length < 2 ^ 32) :
    ∃ pre post, rows knownMet = pre ++ e :: post ∧
      rows (saved knownMet (updateSharedFileMeta (catalog knownMet) hash rating comment)) =
        pre ++ retag rating comment e :: post := by
  cases hcatalog : catalog knownMet with
  | none =>
    rw [rows_of_none hcatalog] at hfind
    cases hfind
  | some met =>
    rw [rows_of_catalog hcatalog] at hfind ⊢
    obtain ⟨i, hi⟩ : ∃ i, met.entries.findIdx? (fun e => e.fileHash = hash) = some i := by
      refine Option.ne_none_iff_exists'.mp fun hnone => ?_
      have hno := List.findIdx?_eq_none_iff.mp hnone e (List.mem_of_find?_eq_some hfind)
      exact absurd (List.find?_some hfind) (by simp [hno])
    obtain ⟨pre, e', post, hentries, -, hfirst, hmodify⟩ :=
      Slots.modify_of_findIdx? hi (retag rating comment)
    obtain rfl := Option.some.inj (hfind.symm.trans hfirst)
    have hupdate := updateSharedFileMeta_some met hash rating comment
    rw [hi] at hupdate
    have hw := writable_updateMeta (writable_catalog hcatalog) (fun x hx => by
      obtain rfl := Option.some.inj (hfind.symm.trans hx)
      exact ⟨hcomment, hcount⟩) hupdate
    refine ⟨pre, post, hentries, ?_⟩
    rw [hupdate]
    exact (rows_saved _ hw).trans hmodify

/-! ## What a row stands for -/

@[simp] theorem hash_rowFile {e : KnownFileEntry} {f : SharedFile} (h : rowFile join e = some f) :
    f.hash = e.fileHash := by
  obtain ⟨name, -, h⟩ := Option.bind_eq_some_iff.mp h
  obtain ⟨size, -, h⟩ := Option.bind_eq_some_iff.mp h
  obtain rfl := Option.some.inj h
  rfl

/-- Rows of some hashes stand for the files of those hashes. -/
theorem filterMap_rowFile (p : Hash16 → Bool) (es : List KnownFileEntry) :
    (es.filter fun e => p e.fileHash).filterMap (rowFile join) =
      (es.filterMap (rowFile join)).filter fun f => p f.hash := by
  rw [List.filterMap_filter, List.filter_filterMap]
  refine List.filterMap_congr fun e _ => ?_
  cases hrow : rowFile join e with
  | none => simp
  | some f => simp [Option.filter, hash_rowFile join hrow]

/-- A search that finds nothing in what is left out. -/
theorem findSome?_filter {α β : Type} {f : α → Option β} {p : α → Bool} {l : List α}
    (h : ∀ a ∈ l, p a = false → f a = none) : (l.filter p).findSome? f = l.findSome? f := by
  induction l with
  | nil => rfl
  | cons a l ih =>
    have hrest := ih fun b hb => h b (List.mem_cons_of_mem a hb)
    cases hp : p a with
    | true => rw [List.filter_cons_of_pos hp, List.findSome?_cons, List.findSome?_cons, hrest]
    | false =>
      rw [List.filter_cons_of_neg (by simp [hp]), List.findSome?_cons,
        h a List.mem_cons_self hp, hrest]

theorem fromUtf8Lossy_utf8 (s : String) : fromUtf8Lossy (utf8 s) = s := fromUtf8Lossy_toUTF8 s

/-- The row of a file that has just been finished. -/
theorem rowFile_entry {sf : SharedFile} {name : String} (hname : sf.name = utf8 name)
    (hpath : sf.path = join name) (hrating : sf.rating = 0) (hcomment : sf.comment = "")
    (date : UInt32) : rowFile join (sf.entry date) = some sf := by
  obtain ⟨hash, size, _, partHashes, _, _, _, aichRoot⟩ := sf
  obtain rfl : _ = utf8 name := hname
  obtain rfl : _ = join name := hpath
  obtain rfl : _ = (0 : UInt8) := hrating
  obtain rfl : _ = "" := hcomment
  set sf : SharedFile := ⟨hash, size, utf8 name, partHashes, join name, 0, "", aichRoot⟩
  have htags : sf.tags = [Tag.ofId FT_FILENAME (.str (utf8 name)),
      Tag.ofId FT_FILESIZE (if sf.large then .u64 size else .u32 size.toUInt32)] ++
        (aichRoot.map fun root => Tag.ofId FT_AICH_HASH (.str (aichBase32 root))).toList := by
    simp [SharedFile.tags, sf]
  have hsize : tagU64 sf.tags FT_FILESIZE = some size := by
    rw [htags]
    by_cases hlarge : sf.large = true
    · simp [tagU64, Tag.ofId, hlarge]
    · have hsmall : size.toUInt32.toUInt64 = size := by
        have hle : size.toNat ≤ OLD_MAX_FILE_SIZE := by simpa [SharedFile.large, sf] using hlarge
        have hlt : size.toNat < 2 ^ 32 := lt_of_le_of_lt hle (by decide)
        apply UInt64.toNat.inj
        rw [UInt32.toNat_toUInt64, UInt64.toNat_toUInt32, Nat.mod_eq_of_lt hlt]
      simp [tagU64, Tag.ofId, hlarge, hsmall]
  have hrating : tagU64 sf.tags FT_FILERATING = none := by
    rw [htags]
    cases aichRoot <;> by_cases hlarge : sf.large = true <;>
      simp [tagU64, Tag.ofId, hlarge, FT_FILERATING, FT_FILESIZE]
  have hcomment : tagString sf.tags FT_FILECOMMENT = none := by
    rw [htags]
    cases aichRoot <;> by_cases hlarge : sf.large = true <;>
      simp [tagString, tagStr, Tag.ofId, hlarge, FT_FILECOMMENT, FT_FILENAME, FT_AICH_HASH]
  have haich : (tagStr sf.tags FT_AICH_HASH).bind aichFromBase32 = aichRoot := by
    rw [htags]
    cases aichRoot <;> by_cases hlarge : sf.large = true <;>
      simp [tagStr, Tag.ofId, hlarge, FT_FILENAME, FT_AICH_HASH]
  have hname : tagString sf.tags FT_FILENAME = some name := by
    simp [htags, tagString, tagStr, Tag.ofId, fromUtf8Lossy_utf8]
  have hrow : (sf.entry date).tags = sf.tags := rfl
  simp only [rowFile, hrow, hname, hsize, hrating, hcomment, haich]
  rfl

/-- What a re-tagged row says of a rating or a comment is what it was re-tagged with. -/
theorem findSome?_retag {β : Type} {f : Tag → Option β} (rating : UInt8) (comment : String)
    (e : KnownFileEntry) : (retag rating comment e).tags.findSome? f =
      ((e.tags.filter fun t => !isMetaName t.name).findSome? f).or
        (((if rating ≠ 0 then [Tag.ofId FT_FILERATING (.u8 rating)] else []).findSome? f).or
          ((if comment ≠ "" then [Tag.ofId FT_FILECOMMENT (.str (utf8 comment))] else []).findSome?
            f)) := by
  rw [retag, List.append_assoc, List.findSome?_append, List.findSome?_append]

/-- What is neither a rating nor a comment has none of them. -/
theorem no_meta_left (tags : List Tag) :
    tagU64 (tags.filter fun t => !isMetaName t.name) FT_FILERATING = none ∧
      tagStr (tags.filter fun t => !isMetaName t.name) FT_FILECOMMENT = none := by
  have hname : ∀ t ∈ tags.filter fun t => !isMetaName t.name,
      t.name ≠ .id FT_FILERATING ∧ t.name ≠ .id FT_FILECOMMENT := by
    intro t ht
    simpa [isMetaName] using (List.mem_filter.mp ht).2
  constructor
  · refine List.findSome?_eq_none_iff.mpr fun t ht => ?_
    obtain ⟨name, value⟩ := t
    have hne := (hname _ ht).1
    cases name with
    | id n =>
      have hn : n ≠ FT_FILERATING := fun h => hne (by rw [h])
      cases value <;> simp [hn]
    | str b => cases value <;> rfl
  · refine List.findSome?_eq_none_iff.mpr fun t ht => ?_
    obtain ⟨name, value⟩ := t
    have hne := (hname _ ht).2
    cases name with
    | id n =>
      have hn : n ≠ FT_FILECOMMENT := fun h => hne (by rw [h])
      cases value <;> simp [hn]
    | str b => cases value <;> rfl

/-- A new rating and comment is all that changes. -/
theorem rowFile_retag {rating : UInt8} (hrating : rating ≤ 5) (comment : String)
    (e : KnownFileEntry) : rowFile join (retag rating comment e) =
      (rowFile join e).map fun f => { f with rating, comment } := by
  have hmeta : ∀ t : Tag, isMetaName t.name = true →
      t.name = .id FT_FILERATING ∨ t.name = .id FT_FILECOMMENT := fun t ht => of_decide_eq_true ht
  have hother (id : UInt8) (hid : id ≠ FT_FILERATING ∧ id ≠ FT_FILECOMMENT) :
      tagStr (retag rating comment e).tags id = tagStr e.tags id ∧
        tagU64 (retag rating comment e).tags id = tagU64 e.tags id := by
    constructor
    · rw [tagStr, findSome?_retag, findSome?_filter]
      · split_ifs <;> simp [Tag.ofId, hid.2.symm, tagStr]
      · intro t _ ht
        rcases hmeta t (by simpa using ht) with hname | hname
        · rw [hname]
          cases t.value <;> simp [hid.1.symm]
        · rw [hname]
          cases t.value <;> simp [hid.2.symm]
    · rw [tagU64, findSome?_retag, findSome?_filter]
      · split_ifs <;> simp [Tag.ofId, hid.1.symm, tagU64]
      · intro t _ ht
        rcases hmeta t (by simpa using ht) with hname | hname
        · rw [hname]
          cases t.value <;> simp [hid.1.symm]
        · rw [hname]
          cases t.value <;> simp [hid.2.symm]
  obtain ⟨hnorating, hnocomment⟩ := no_meta_left e.tags
  have hrated : (min ((tagU64 (retag rating comment e).tags FT_FILERATING).getD 0) 5).toUInt8 =
      rating := by
    have hle : rating.toUInt64 ≤ 5 := by
      rw [UInt64.le_iff_toNat_le, UInt8.toNat_toUInt64]
      exact UInt8.le_iff_toNat_le.mp hrating
    rw [tagU64, findSome?_retag]
    rw [tagU64] at hnorating
    rw [hnorating, Option.none_or]
    by_cases hzero : rating = 0
    · rw [if_neg (by simp [hzero]), hzero]
      split_ifs <;> rfl
    · rw [if_pos hzero]
      show (if rating.toUInt64 ≤ 5 then rating.toUInt64 else 5).toUInt8 = rating
      rw [if_pos hle, UInt8.toUInt8_toUInt64]
  have hcommented : (tagString (retag rating comment e).tags FT_FILECOMMENT).getD "" = comment := by
    rw [tagString, tagStr, findSome?_retag]
    rw [tagStr] at hnocomment
    rw [hnocomment, Option.none_or]
    by_cases hempty : comment = ""
    · simp only [hempty, ne_eq, not_true_eq_false, if_false, List.findSome?_nil, Option.or_none]
      split_ifs <;> rfl
    · rw [if_pos hempty]
      split_ifs <;> simp [Tag.ofId, fromUtf8Lossy_utf8, FT_FILERATING, FT_FILECOMMENT]
  have hname := (hother FT_FILENAME (by decide)).1
  have hsize := (hother FT_FILESIZE (by decide)).2
  have haich := (hother FT_AICH_HASH (by decide)).1
  have hhash : (retag rating comment e).fileHash = e.fileHash := rfl
  have hparts : (retag rating comment e).partHashes = e.partHashes := rfl
  simp only [rowFile, tagString, hname, hsize, haich, hrated, hhash, hparts] at hcommented ⊢
  simp only [hcommented]
  cases tagStr e.tags FT_FILENAME with
  | none => rfl
  | some name =>
    cases tagU64 e.tags FT_FILESIZE with
    | none => rfl
    | some size => rfl

/-! ## What the store keeps -/

namespace Known2Store

variable {s : Known2Store}

theorem has_iff (r : Hash20) : s.has r = true ↔ r ∈ s.index.map Prod.fst := by
  rw [has, Option.isSome_iff_ne_none, ne_eq, List.lookup_eq_none_iff]
  simp

theorem sound_load (file : Option Bytes) : (load file).Sound := by
  rw [load]
  split
  · exact .inl ⟨[], rfl, by simp [has]⟩
  · next bytes hne =>
    cases hscan : scanKnown2Met (file.getD []) with
    | ok ix =>
      refine .inl ⟨known2Entries (file.getD []), congrArg some (take_validLen hscan), fun r => ?_⟩
      show has ⟨_, ix.byRoot⟩ r = true ↔ _
      rw [has_iff, byRoot_of_scan hscan]
      exact mem_indexFrom 1
    | error err =>
      obtain ⟨version, rest, hbytes⟩ := List.exists_cons_of_ne_nil hne
      have hfile : file = some (version :: rest) := by
        cases file with
        | none => exact absurd rfl hne
        | some b => exact congrArg some hbytes
      refine .inr ⟨version, rest, hfile, fun hversion => ?_, rfl⟩
      rw [hbytes, scanKnown2Met, if_neg (not_not.mpr hversion)] at hscan
      cases hscan

theorem Sound.append (h : s.Sound) {e : Known2Entry} {s' : Known2Store}
    (happend : s.append e = some s') :
    s'.Sound ∧ ∀ r, s'.has r = true ↔ s.has r = true ∨ r = e.root := by
  rw [Known2Store.append] at happend
  split_ifs at happend with hhas
  · obtain rfl := Option.some.inj happend
    exact ⟨h, fun r => ⟨.inl, fun hr => hr.elim id fun heq => heq ▸ hhas⟩⟩
  · have hnew (file : Option Bytes) (n : Nat) (r : Hash20) :
        has ⟨file, (e.root, n) :: s.index⟩ r = true ↔ s.has r = true ∨ r = e.root := by
      rw [has_iff, has_iff, List.map_cons, List.mem_cons, or_comm]
    rcases h with ⟨es, hfile, hroots⟩ | ⟨version, rest, hfile, hversion, hindex⟩
    · simp only [hfile, Option.getD_some, writeKnown2Met, ne_eq, not_true_eq_false, if_false,
        Option.some.injEq] at happend
      subst happend
      refine ⟨.inl ⟨es ++ [e], ?_, fun r => ?_⟩, hnew _ _⟩
      · simp [writeKnown2Met]
      · rw [hnew, hroots, List.map_append, List.mem_append, List.map_singleton,
          List.mem_singleton]
    · simp [hfile, hversion] at happend

theorem Sound.remove (h : s.Sound) (root : Hash20) :
    (s.remove root).Sound ∧ ∀ r, (s.remove root).has r = true ↔ s.has r = true ∧ r ≠ root := by
  rw [Known2Store.remove]
  cases hhas : s.has root with
  | false =>
    refine ⟨h, fun r => ⟨fun hr => ⟨hr, fun heq => ?_⟩, fun hr => hr.1⟩⟩
    subst heq
    exact absurd (hhas.symm.trans hr) (by simp)
  | true =>
    rcases h with ⟨es, hfile, hroots⟩ | ⟨version, rest, hfile, hversion, hindex⟩
    · obtain ⟨out, hout⟩ : ∃ out, removeKnown2Entry (writeKnown2Met es) root = some out := by
        refine Option.ne_none_iff_exists'.mp fun hnone => ?_
        have hno := root_ne_of_remove_eq_none hnone
        rw [known2Entries_write] at hno
        obtain ⟨e, he, heq⟩ := List.mem_map.mp ((hroots root).mp hhas)
        exact hno e he heq
      have hleft := eq_of_remove hout
      rw [known2Entries_write] at hleft
      simp only [hfile, hout, hleft, scan_write, Bool.not_true, Bool.false_eq_true, if_false]
      have hroots' (r : Hash20) : r ∈ (es.filter fun e => e.root ≠ root).map Known2Entry.root ↔
          s.has r = true ∧ r ≠ root := by
        rw [hroots, List.mem_map, List.mem_map]
        constructor
        · rintro ⟨e, he, rfl⟩
          obtain ⟨he, hne⟩ := List.mem_filter.mp he
          exact ⟨⟨e, he, rfl⟩, of_decide_eq_true hne⟩
        · rintro ⟨⟨e, he, rfl⟩, hne⟩
          exact ⟨e, List.mem_filter.mpr ⟨he, decide_eq_true hne⟩, rfl⟩
      have hhas' (file : Option Bytes) (r : Hash20) :
          has ⟨file, indexFrom 1 (es.filter fun e => e.root ≠ root)⟩ r = true ↔
            r ∈ (es.filter fun e => e.root ≠ root).map Known2Entry.root := by
        rw [has_iff]
        exact mem_indexFrom 1
      exact ⟨.inl ⟨_, rfl, hhas' _⟩, fun r => (hhas' _ r).trans (hroots' r)⟩
    · rw [has, hindex] at hhas
      cases hhas

end Known2Store

/-! ## Every operation keeps them in agreement -/

theorem present_write (disk : Files) (path : String) (len : UInt64) (f : SharedFile) :
    present (write disk path len) f = true ↔
      if f.path = path then f.size = len else present disk f = true := by
  simp only [present, get_write, decide_eq_true_eq]
  split_ifs with hpath
  · rw [Option.some.injEq]
    exact eq_comm
  · rfl

theorem present_remove (disk : Files) (path : String) (f : SharedFile) :
    present (remove disk path) f = true → present disk f = true := by
  simp only [present, get_remove, decide_eq_true_eq]
  split_ifs
  · exact fun h => absurd h (by simp)
  · exact id

namespace Known2Store

variable {s : Known2Store}

theorem Sound.remove_all (h : s.Sound) (roots : List Hash20) :
    (roots.foldl Known2Store.remove s).Sound ∧
      ∀ r, (roots.foldl Known2Store.remove s).has r = true ↔ s.has r = true ∧ r ∉ roots := by
  induction roots generalizing s with
  | nil => exact ⟨h, fun r => by simp⟩
  | cons root roots ih =>
    obtain ⟨hone, hhas⟩ := h.remove root
    obtain ⟨hall, hhas'⟩ := ih hone
    refine ⟨hall, fun r => (hhas' r).trans ?_⟩
    rw [hhas, List.mem_cons, not_or, and_assoc]

end Known2Store

namespace World

variable {join} {w : World}

/-- The catalog is the live library and rows of files that are not there. -/
structure Synced (join : String → String) (w : World) : Prop where
  claimed : ∃ stale, (claims join w.knownMet).Perm (w.shared ++ stale) ∧
    ∀ c ∈ stale, present w.disk c = false
  sound : w.known2.Sound
  kept : ∀ f ∈ w.shared, ∀ r, f.aichRoot = some r → r ∈ w.seen → w.known2.has r = true

theorem Synced.agrees (h : w.Synced join) : w.Agrees join := by
  obtain ⟨stale, hperm, hstale⟩ := h.claimed
  refine ⟨?_, h.kept⟩
  have hnone : stale.filter (present w.disk) = [] :=
    List.filter_eq_nil_iff.mpr fun c hc => by simp [hstale c hc]
  have hloaded := hperm.filter (present w.disk)
  rwa [List.filter_append, hnone, List.append_nil] at hloaded

theorem synced_start (disk : Files) (knownMet known2 : Option Bytes) :
    (start join disk knownMet known2).Synced join where
  claimed := ⟨(claims join knownMet).filter fun f => !present disk f,
    (List.filter_append_perm (present disk) (claims join knownMet)).symm,
    fun _ hc => Bool.eq_false_of_not_eq_true' (List.mem_filter.mp hc).2⟩
  sound := Known2Store.sound_load known2
  kept _ _ r _ hr := (Known2Store.has_iff r).mpr hr

theorem absent_write {disk : Files} {path : String} {len : UInt64} {c : SharedFile}
    (hne : ¬(c.path = path ∧ c.size = len)) (h : present disk c = false) :
    present (write disk path len) c = false := by
  rw [Bool.eq_false_iff, ne_eq, present_write]
  split_ifs with hpath
  · exact fun hsize => hne ⟨hpath, hsize⟩
  · simp [h]

/-- A file that comes to stand where nothing else is claimed brings back no row. -/
theorem absent_all_write {path : String} {len : UInt64} {stale : List SharedFile}
    (hperm : (claims join w.knownMet).Perm (w.shared ++ stale))
    (hstale : ∀ c ∈ stale, present w.disk c = false) (hothers : w.NothingElseAt join path len) :
    ∀ c ∈ stale, present (write w.disk path len) c = false := by
  have hboth := (hperm.filter fun f => f.path = path ∧ f.size = len).length_eq
  rw [List.filter_append, List.length_append, hothers.length_eq] at hboth
  have hnone := List.eq_nil_of_length_eq_zero (Nat.left_eq_add.mp hboth)
  exact fun c hc => absent_write (by simpa using List.filter_eq_nil_iff.mp hnone c hc)
    (hstale c hc)

theorem absent_remove {path : String} {c : SharedFile} (h : present w.disk c = false) :
    present (remove w.disk path) c = false :=
  Bool.eq_false_iff.mpr fun hc => absurd (present_remove w.disk path c hc) (by simp [h])

theorem claims_forget (knownMet : Option Bytes) (hash : Hash16) :
    claims join (forget knownMet hash) =
      (claims join knownMet).filter fun f => f.hash ≠ hash := by
  rw [claims, rows_forget, claims]
  exact filterMap_rowFile join (fun h => decide (h ≠ hash)) _

theorem claims_forget_all (hashes : List Hash16) (knownMet : Option Bytes) :
    claims join (hashes.foldl forget knownMet) =
      (claims join knownMet).filter fun f => f.hash ∉ hashes := by
  rw [claims, rows_forget_all, claims]
  exact filterMap_rowFile join (fun h => decide (h ∉ hashes)) _

/-- The store keeps what it has, and has the hashset of the file. -/
theorem keepHashset_spec (hsound : w.known2.Sound) (aich : Option Known2Entry) :
    (w.keepHashset aich).1.Sound ∧ ∀ r, (w.keepHashset aich).1.has r = true ↔
      w.known2.has r = true ∨ (w.keepHashset aich).2 = some r := by
  cases aich with
  | none => exact ⟨hsound, fun r => by simp [keepHashset]⟩
  | some e =>
    cases happend : w.known2.append e with
    | none =>
      have hkeep : w.keepHashset (some e) = (w.known2, none) := by simp [keepHashset, happend]
      rw [hkeep]
      exact ⟨hsound, fun r => by simp⟩
    | some store =>
      have hkeep : w.keepHashset (some e) = (store, some e.root) := by simp [keepHashset, happend]
      rw [hkeep]
      obtain ⟨hstore, hhas⟩ := hsound.append happend
      exact ⟨hstore, fun r => by rw [hhas, Option.some.injEq, eq_comm (b := r)]⟩

theorem Synced.finishDownload (h : w.Synced join) {hash : Hash16} {size : UInt64}
    {name : Paths.Name} {partHashes : List Hash16} {aich : Option Known2Entry} {date : UInt32}
    (hok : w.Allowed join (.finishDownload hash size name partHashes aich date)) :
    (w.finishDownload join hash size name partHashes aich date).Synced join := by
  obtain ⟨stale, hperm, hstale⟩ := h.claimed
  obtain ⟨hsound, hhas⟩ := keepHashset_spec h.sound aich
  set sf := w.finishedFile join hash size name partHashes (w.keepHashset aich).2
  have hdisk : (w.finishDownload join hash size name partHashes aich date).disk =
      write w.disk sf.path sf.size := rfl
  have hknownMet : (w.finishDownload join hash size name partHashes aich date).knownMet =
      saved w.knownMet (persistSharedFile (catalog w.knownMet) sf date) := rfl
  refine ⟨?_, hsound, ?_⟩
  · rw [hdisk, hknownMet]
    by_cases hknown : ∃ e ∈ rows w.knownMet, e.fileHash = hash
    · -- the row that is there already now stands for a file that is live
      have hclaimed : w.ClaimedAlready join sf := (if_pos hknown).mp hok
      rw [persist_known hknown date]
      have hthere := hclaimed.symm.trans (hperm.filter _)
      rw [List.filter_append] at hthere
      have hone := List.perm_singleton.mp ((List.perm_append_left_iff _).mp
        (hthere.symm.trans (List.perm_append_singleton sf _).symm))
      have hsplit := List.filter_append_perm (fun f => f.path = sf.path ∧ f.size = sf.size) stale
      rw [hone] at hsplit
      refine ⟨stale.filter fun f => !decide (f.path = sf.path ∧ f.size = sf.size), ?_, ?_⟩
      · show (claims join w.knownMet).Perm (w.shared ++ [sf] ++ _)
        rw [List.append_assoc]
        exact hperm.trans (hsplit.symm.append_left w.shared)
      · intro c hc
        obtain ⟨hc, hother⟩ := List.mem_filter.mp hc
        exact absent_write (fun hq => by simp [hq] at hother) (hstale c hc)
    · obtain ⟨hothers, hname, hparts, hcount⟩ :
          w.NothingElseAt join sf.path sf.size ∧ w.Fits sf := (if_neg hknown).mp hok
      have hnew : ∀ e ∈ rows w.knownMet, e.fileHash ≠ sf.hash :=
        fun e he heq => hknown ⟨e, he, heq⟩
      have hrow : rowFile join (sf.entry date) = some sf := rowFile_entry join rfl rfl rfl rfl date
      have hclaims : claims join (saved w.knownMet
          (persistSharedFile (catalog w.knownMet) sf date)) = claims join w.knownMet ++ [sf] := by
        rw [claims, rows_persist hnew ⟨hname, Nat.zero_le 65535, hparts⟩ hcount date,
          List.filterMap_append, List.filterMap_cons, hrow]
        rfl
      refine ⟨stale, ?_, absent_all_write hperm hstale hothers⟩
      show (claims join (saved w.knownMet _)).Perm (w.shared ++ [sf] ++ stale)
      rw [hclaims, List.append_assoc]
      refine (hperm.append_right [sf]).trans ?_
      rw [List.append_assoc]
      exact List.perm_append_comm.append_left w.shared
  · intro f hf r hr hseen
    refine (hhas r).mpr ?_
    rcases List.mem_append.mp hf with hf | hf
    · rcases List.mem_append.mp hseen with hseen | hseen
      · exact .inr (Option.mem_toList.mp hseen)
      · exact .inl (h.kept f hf r hr hseen)
    · obtain rfl := List.mem_singleton.mp hf
      exact .inr hr

theorem needed {f g : SharedFile} {r : Hash20} (hf : f.aichRoot = some r)
    (hhas : w.known2.has r = true) (hg : g.aichRoot = some r) : ¬w.Unneeded f g := by
  intro hunneeded
  have hnone := hunneeded (hf.trans hg.symm)
  rw [hf, Option.any_some, hhas] at hnone
  cases hnone

theorem Synced.unshareFile (h : w.Synced join) {hash : Hash16}
    (hok : ∀ f ∈ w.firstShared hash, ∀ g ∈ w.shared, g.hash ≠ hash → w.Unneeded f g) :
    (w.unshareFile hash).Synced join := by
  cases hfirst : w.firstShared hash with
  | none =>
    have hsame : w.unshareFile hash = w := by rw [World.unshareFile, hfirst]
    rwa [hsame]
  | some f =>
    have hnext : w.unshareFile hash =
        { w with
          shared := w.shared.filter fun g => g.hash ≠ hash
          knownMet := forget w.knownMet hash
          known2 := f.aichRoot.elim w.known2 w.known2.remove } := by
      rw [World.unshareFile, hfirst]
    obtain ⟨stale, hperm, hstale⟩ := h.claimed
    have hclaimed := hperm.filter fun g => g.hash ≠ hash
    rw [List.filter_append, ← claims_forget] at hclaimed
    rw [hnext]
    refine ⟨⟨_, hclaimed, fun c hc => hstale c (List.mem_of_mem_filter hc)⟩, ?_, ?_⟩
    · cases hroot : f.aichRoot with
      | none => exact h.sound
      | some root => exact (h.sound.remove root).1
    · intro g hg r hr hseen
      obtain ⟨hg, hne⟩ := List.mem_filter.mp hg
      have hhas := h.kept g hg r hr hseen
      cases hroot : f.aichRoot with
      | none => exact hhas
      | some root =>
        refine ((h.sound.remove root).2 r).mpr ⟨hhas, fun heq => ?_⟩
        subst heq
        exact needed hroot hhas hr (hok f hfirst g hg (of_decide_eq_true hne))

theorem Synced.removed (h : w.Synced join) (path : String) :
    Synced join { w with disk := remove w.disk path } := by
  obtain ⟨stale, hperm, hstale⟩ := h.claimed
  exact ⟨⟨stale, hperm, fun c hc => absent_remove (hstale c hc)⟩, h.sound, h.kept⟩

theorem Synced.deleteSharedFile (h : w.Synced join) {hash : Hash16}
    (hok : ∀ f ∈ w.firstShared hash, ∀ g ∈ w.shared, g.hash ≠ hash → w.Unneeded f g) :
    (w.deleteSharedFile hash).Synced join := by
  rw [World.deleteSharedFile]
  cases w.firstShared hash with
  | none => exact h
  | some f => exact (h.unshareFile hok).removed f.path

theorem Synced.verifySharedLibrary (h : w.Synced join)
    (hok : w.Allowed join .verifySharedLibrary) : (w.verifySharedLibrary).Synced join := by
  obtain ⟨stale, hperm, hstale⟩ := h.claimed
  set missing := w.shared.filter fun f => !present w.disk f with hmissing
  have hmem (f : SharedFile) : f ∈ missing ↔ f ∈ w.shared ∧ present w.disk f = false := by
    rw [hmissing, List.mem_filter, Bool.not_eq_true']
  have hleft : (w.shared.filter fun f => f.hash ∉ missing.map SharedFile.hash) =
      w.shared.filter (present w.disk) := by
    refine List.filter_congr fun g hg => ?_
    cases hpresent : present w.disk g with
    | false =>
      simp only [decide_eq_false_iff_not, not_not]
      exact List.mem_map_of_mem ((hmem g).mpr ⟨hg, hpresent⟩)
    | true =>
      refine decide_eq_true fun hin => ?_
      obtain ⟨f, hf, heq⟩ := List.mem_map.mp hin
      obtain ⟨hf, hgone⟩ := (hmem f).mp hf
      exact (hok f hf hgone g hg hpresent).1 heq.symm
  have hclaimed := hperm.filter fun f => f.hash ∉ missing.map SharedFile.hash
  rw [List.filter_append, ← claims_forget_all, hleft] at hclaimed
  obtain ⟨hsound, hhas⟩ := h.sound.remove_all (missing.reverse.filterMap SharedFile.aichRoot)
  refine ⟨⟨_, hclaimed, fun c hc => hstale c (List.mem_of_mem_filter hc)⟩, hsound, ?_⟩
  intro g hg r hr hseen
  obtain ⟨hg, hpresent⟩ := List.mem_filter.mp hg
  have hkept := h.kept g hg r hr hseen
  refine (hhas r).mpr ⟨hkept, fun hin => ?_⟩
  obtain ⟨f, hf, hroot⟩ := List.mem_filterMap.mp hin
  obtain ⟨hf, hgone⟩ := (hmem f).mp (List.mem_reverse.mp hf)
  exact needed hroot hkept hr (hok f hf hgone g hg hpresent).2

/-- A comment of that many characters fits a tag. -/
theorem length_comment (comment : List Char) :
    (utf8 (String.ofList (comment.take MAX_FILE_COMMENT_LEN))).length ≤ 65535 := by
  have hbytes := length_utf8Bytes_le (comment.take MAX_FILE_COMMENT_LEN)
  have hchars : (comment.take MAX_FILE_COMMENT_LEN).length ≤ 50 := List.length_take_le _ comment
  rw [utf8_ofList]
  omega

theorem length_retag_le (rating : UInt8) (comment : String) (e : KnownFileEntry) :
    (retag rating comment e).tags.length ≤ e.tags.length + 2 := by
  have hleft := List.length_filter_le (fun t => !isMetaName t.name) e.tags
  simp only [retag, List.length_append]
  split_ifs <;> simp only [List.length_nil, List.length_singleton] <;> omega

theorem Synced.setFileRating (h : w.Synced join) {hash : Hash16} {rating : UInt8}
    {comment : List Char} (hok : w.Allowed join (.setFileRating hash rating comment)) :
    (w.setFileRating hash rating comment).Synced join := by
  rw [World.setFileRating]
  cases hidx : w.shared.findIdx? fun f => f.hash = hash with
  | none => exact h
  | some i =>
    set rating' := min rating 5 with hrating
    set comment' := String.ofList (comment.take MAX_FILE_COMMENT_LEN)
    have hle : rating' ≤ 5 := by
      show (if rating ≤ 5 then rating else 5) ≤ 5
      split_ifs with hsmall
      · exact hsmall
      · exact UInt8.le_refl 5
    obtain ⟨pre, f, post, hshared, -, hfirst, hmodify⟩ :=
      Slots.modify_of_findIdx? hidx fun f => { f with rating := rating', comment := comment' }
    obtain ⟨e, hfind, hrow, hcount⟩ := hok f hfirst
    obtain ⟨stale, hperm, hstale⟩ := h.claimed
    obtain ⟨before, behind, hrows, hrows'⟩ := rows_update hfind (length_comment comment)
      (lt_of_le_of_lt (length_retag_le rating' comment' e) hcount)
    have hrow' : rowFile join (retag rating' comment' e) =
        some { f with rating := rating', comment := comment' } := by
      rw [rowFile_retag join hle, hrow]
      rfl
    set f' : SharedFile := { f with rating := rating', comment := comment' }
    have hclaims : claims join w.knownMet =
        before.filterMap (rowFile join) ++ f :: behind.filterMap (rowFile join) := by
      rw [claims, hrows, List.filterMap_append, List.filterMap_cons, hrow]
    have hclaims' : claims join (saved w.knownMet
        (updateSharedFileMeta (catalog w.knownMet) hash rating' comment')) =
          before.filterMap (rowFile join) ++ f' :: behind.filterMap (rowFile join) := by
      rw [claims, hrows', List.filterMap_append, List.filterMap_cons, hrow']
    -- the entry and its row are the same file, before and after
    have hrest : (before.filterMap (rowFile join) ++ behind.filterMap (rowFile join)).Perm
        (pre ++ (post ++ stale)) := by
      rw [hclaims, hshared, List.append_assoc, List.cons_append] at hperm
      exact (List.perm_middle.symm.trans (hperm.trans List.perm_middle)).cons_inv
    refine ⟨⟨stale, ?_, hstale⟩, h.sound, ?_⟩
    · show (claims join (saved w.knownMet _)).Perm (w.shared.modify i _ ++ stale)
      rw [hclaims', hmodify, List.append_assoc, List.cons_append]
      exact List.perm_middle.trans ((hrest.cons f').trans List.perm_middle.symm)
    · intro g hg r hr hseen
      have hg : g ∈ pre ++ f' :: post := hmodify ▸ hg
      rcases List.mem_append.mp hg with hg | hg
      · exact h.kept g (hshared ▸ List.mem_append_left _ hg) r hr hseen
      rcases List.mem_cons.mp hg with rfl | hg
      · exact h.kept f (hshared ▸ List.mem_append_right _ List.mem_cons_self) r hr hseen
      · have hin : g ∈ pre ++ f :: post :=
          List.mem_append_right _ (List.mem_cons_of_mem f hg)
        exact h.kept g (hshared ▸ hin) r hr hseen

theorem Synced.userFile (h : w.Synced join) {path : String} {len : Option UInt64}
    (hok : w.Allowed join (.userFile path len)) : (w.userFile path len).Synced join := by
  cases len with
  | none => exact h.removed path
  | some n =>
    obtain ⟨stale, hperm, hstale⟩ := h.claimed
    exact ⟨⟨stale, hperm, absent_all_write hperm hstale hok⟩, h.sound, h.kept⟩

/-- Where an operation is allowed, the catalog stays the library and rows of missing files. -/
theorem Synced.apply (h : w.Synced join) {op : Op} (hok : w.Allowed join op) :
    (w.apply join op).Synced join := by
  cases op with
  | finishDownload => exact h.finishDownload hok
  | unshareFile => exact h.unshareFile hok
  | deleteSharedFile => exact h.deleteSharedFile hok
  | verifySharedLibrary => exact h.verifySharedLibrary hok
  | setFileRating => exact h.setFileRating hok
  | userFile => exact h.userFile hok

end World

/-- From a start, however it finds the disk, the catalog and the store, the three agree after each
    operation of a run in which each is allowed. -/
theorem library_agrees (disk : Files) (knownMet known2 : Option Bytes) (ops : List Op)
    (h : Runs.Throughout (World.step join) (World.Allowed join)
      (World.start join disk knownMet known2) ops) :
    Runs.Always (World.step join) (World.Agrees join)
      (World.start join disk knownMet known2) ops := by
  have hkeep : ∀ w op w', World.Synced join w → World.Allowed join w op →
      World.step join w op = some w' → World.Synced join w' := by
    intro w op w' hw hok hstep
    obtain rfl := Option.some.inj hstep
    exact hw.apply hok
  exact Runs.always_of_throughout hkeep (fun w hw => hw.agrees)
    (World.synced_start disk knownMet known2) h

def downloads (name : String) : String := "Downloads/" ++ name

def oneFile : Hash16 := ⟨List.replicate 16 1, by decide⟩

/-- A hashset of no leaves. -/
def emptyHashset : Known2Entry := ⟨List.replicate 20 9 ++ [0, 0, 0, 0], by decide⟩

def finishRateDelete : List Op :=
  [.finishDownload oneFile 5 "a".toList [] (some emptyHashset) 0,
    .setFileRating oneFile 4 "ok".toList, .userFile "Downloads/a" none, .verifySharedLibrary]

/-- A file is finished and rated, its owner deletes it, and it is dropped. -/
theorem finish_rate_delete_agrees : Runs.Always (World.step downloads) (World.Agrees downloads)
    (World.start downloads [] none none) finishRateDelete :=
  library_agrees downloads [] none none finishRateDelete (by decide +kernel)

def finishTwice : List Op :=
  [.finishDownload oneFile 5 "a".toList [] none 0, .finishDownload oneFile 5 "a".toList [] none 0]

/-- Finished again, the file is on disk as `a (2)` and live, and the next start does not load it. -/
theorem finished_again_not_loaded : ¬∀ disk knownMet known2 ops,
    Runs.Always (World.step downloads) (World.Agrees downloads)
      (World.start downloads disk knownMet known2) ops := by
  intro h
  obtain ⟨w, hrun, hdiffer⟩ : ∃ w, Runs.run (World.step downloads)
      (World.start downloads [] none none) finishTwice = some w ∧
        (loadSharedLibrary downloads w.knownMet w.disk).length ≠
          (w.shared.filter (present w.disk)).length := by
    refine ⟨_, rfl, ?_⟩
    decide +kernel
  exact hdiffer ((h [] none none finishTwice).run hrun).loaded.length_eq

end PadMule.Engine.LibraryAgrees
