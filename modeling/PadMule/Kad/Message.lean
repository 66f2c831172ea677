import PadMule.Lib.LossyUtf8
import PadMule.Proto.KadId
import PadMule.Proto.Tag

/-
  `mule-kad/src/message.rs`: the messages of Kad.

  The counts and lengths in front of a list are cut to their width, except the count of a tag
  list, which wraps. An integer is written in the narrowest of four widths and read back to the
  same number; `reads_kadTag` says what every tag reads back as.
-/

namespace PadMule.Kad

open PadMule.Proto
open Readers LittleEndian LossyUtf8

def OP_BOOTSTRAP_RES : UInt8 := 0x09
def OP_HELLO_RES_ACK : UInt8 := 0x22
def OP_KAD2_RES : UInt8 := 0x29
def OP_SEARCH_RES : UInt8 := 0x3B
def OP_PUBLISH_KEY_REQ : UInt8 := 0x43
def OP_PUBLISH_SOURCE_REQ : UInt8 := 0x44

/-- From this version on a contact is told the AICH root of a published file. -/
def KADEMLIA_VERSION9_50A : UInt8 := 0x09

def TAG_FILENAME : UInt8 := 0x01
def TAG_FILESIZE : UInt8 := 0x02
def TAG_FILETYPE : UInt8 := 0x03
def TAG_SOURCES : UInt8 := 0x15
def TAG_KADAICHHASHPUB : UInt8 := 0x36
def TAG_ENCRYPTION : UInt8 := 0xF3
def TAG_SOURCEUPORT : UInt8 := 0xFC
def TAG_SOURCEPORT : UInt8 := 0xFD
def TAG_SOURCEIP : UInt8 := 0xFE
def TAG_SOURCETYPE : UInt8 := 0xFF

def TT_HASH16 : UInt8 := 0x01
def TT_STRING : UInt8 := 0x02
def TT_UINT32 : UInt8 := 0x03
def TT_FLOAT32 : UInt8 := 0x04
def TT_UINT16 : UInt8 := 0x08
def TT_UINT8 : UInt8 := 0x09
def TT_BSOB : UInt8 := 0x0A
def TT_UINT64 : UInt8 := 0x0B

/-! ## Tags -/

/-- The integer types of the wire collapse to `int`; `float` is kept as its bit pattern. -/
inductive KadTagValue where
  | int (v : UInt64)
  | str (s : Bytes)
  | bsob (b : Bytes)
  | hash (h : Hash16)
  | float (bits : UInt32)
deriving DecidableEq

structure KadTag where
  name : UInt8
  value : KadTagValue
deriving DecidableEq

def writeName (name : UInt8) : Bytes := writeU16 1 ++ writeU8 name

def writeKadTag (tag : KadTag) : Bytes :=
  match tag.value with
  | .int v =>
    if v ≤ 0xFF then writeU8 TT_UINT8 ++ writeName tag.name ++ writeU8 v.toUInt8
    else if v ≤ 0xFFFF then writeU8 TT_UINT16 ++ writeName tag.name ++ writeU16 v.toUInt16
    else if v ≤ 0xFFFFFFFF then writeU8 TT_UINT32 ++ writeName tag.name ++ writeU32 v.toUInt32
    else writeU8 TT_UINT64 ++ writeName tag.name ++ writeU64 v
  | .str s => writeU8 TT_STRING ++ writeName tag.name ++ writeStringU16 s
  | .bsob b =>
    let n := min b.length 255
    writeU8 TT_BSOB ++ writeName tag.name ++ (writeU8 (UInt8.ofNat n) ++ b.take n)
  | .hash h => writeU8 TT_HASH16 ++ writeName tag.name ++ h.bytes
  | .float bits => writeU8 TT_FLOAT32 ++ writeName tag.name ++ writeU32 bits

def readKadTagValue (ty : UInt8) : Reader KadTagValue :=
  if ty = TT_UINT8 then do return .int (← readU8).toUInt64
  else if ty = TT_UINT16 then do return .int (← readU16).toUInt64
  else if ty = TT_UINT32 then do return .int (← readU32).toUInt64
  else if ty = TT_UINT64 then do return .int (← readU64)
  else if ty = TT_STRING then do return .str (← readStringU16)
  else if ty = TT_BSOB then do
    let n ← readU8
    return .bsob (← readBytes n.toNat)
  else if ty = TT_HASH16 then do return .hash (← readDigest 16)
  else if ty = TT_FLOAT32 then do return .float (← readU32)
  else throw (.badTag ty)

/-- The name is the first byte of a name of any length, 0 of an empty one. -/
def readKadTag : Reader KadTag := do
  let ty ← readU8
  let nameLen ← readU16
  let nameBytes ← readBytes nameLen.toNat
  let value ← readKadTagValue ty
  return ⟨nameBytes.headD 0, value⟩

def readKadTaglist : Reader (List KadTag) := do
  let count ← readU8
  readMany readKadTag count.toNat

def writeKadTaglist (tags : List KadTag) : Bytes :=
  writeU8 (UInt8.ofNat tags.length) ++ tags.flatMap writeKadTag

/-- What a written value reads back as. -/
def KadTagValue.capped : KadTagValue → KadTagValue
  | .str s => .str (s.take 65535)
  | .bsob b => .bsob (b.take 255)
  | v => v

def KadTag.capped (t : KadTag) : KadTag := ⟨t.name, t.value.capped⟩

/-- A length within its prefix. -/
def KadTagValue.Writable : KadTagValue → Prop
  | .str s => s.length ≤ 65535
  | .bsob b => b.length ≤ 255
  | _ => True

instance : (v : KadTagValue) → Decidable v.Writable
  | .str s => inferInstanceAs (Decidable (s.length ≤ 65535))
  | .bsob b => inferInstanceAs (Decidable (b.length ≤ 255))
  | .int _ | .hash _ | .float _ => isTrue trivial

theorem KadTag.capped_of_writable {t : KadTag} (h : t.value.Writable) : t.capped = t := by
  obtain ⟨name, value⟩ := t
  cases value with
  | str s => exact congrArg (fun s => KadTag.mk name (.str s)) (List.take_of_length_le h)
  | bsob b => exact congrArg (fun b => KadTag.mk name (.bsob b)) (List.take_of_length_le h)
  | _ => rfl

theorem reads_nameByte (name : UInt8) : Reads (readBytes 1) (writeU8 name) [name] := by
  have hbyte : writeU8 name = [name] := by
    simp [writeU8, toLE]
  rw [hbyte]
  exact reads_bytes [name] rfl

theorem reads_tagOf {ty name : UInt8} {bs : Bytes} {v : KadTagValue}
    (h : Reads (readKadTagValue ty) bs v) :
    Reads readKadTag (writeU8 ty ++ writeName name ++ bs) ⟨name, v⟩ := by
  rw [writeName, List.append_assoc, List.append_assoc]
  exact (reads_u8 ty).bind ((reads_u16 1).bind ((reads_nameByte name).bind h.bind_pure))

/-- An integer read at one width and widened. -/
theorem reads_widened {α : Type} {ty name : UInt8} {m : Reader α} {bs : Bytes} {a : α}
    {widen : α → UInt64} {v : UInt64} (hread : Reads m bs a) (hback : widen a = v)
    (hty : readKadTagValue ty = do return .int (widen (← m))) :
    Reads readKadTag (writeU8 ty ++ writeName name ++ bs) ⟨name, .int v⟩ := by
  have hvalue : Reads (readKadTagValue ty) bs (.int v) := by
    rw [hty, ← hback]
    exact hread.bind_pure
  exact reads_tagOf hvalue

/-- The width that holds `v` loses nothing of it. -/
theorem reads_intTag (name : UInt8) (v : UInt64) :
    Reads readKadTag (writeKadTag ⟨name, .int v⟩) ⟨name, .int v⟩ := by
  unfold writeKadTag
  dsimp only
  split_ifs with h8 h16 h32
  · have hback : v.toUInt8.toUInt64 = v := by
      have hle := UInt64.le_iff_toNat_le.mp h8
      apply UInt64.toNat.inj
      simp at hle ⊢
      omega
    exact reads_widened (reads_u8 _) hback rfl
  · have hback : v.toUInt16.toUInt64 = v := by
      have hle := UInt64.le_iff_toNat_le.mp h16
      apply UInt64.toNat.inj
      simp at hle ⊢
      omega
    exact reads_widened (reads_u16 _) hback rfl
  · have hback : v.toUInt32.toUInt64 = v := by
      have hle := UInt64.le_iff_toNat_le.mp h32
      apply UInt64.toNat.inj
      simp at hle ⊢
      omega
    exact reads_widened (reads_u32 _) hback rfl
  · exact reads_tagOf (reads_u64 v).bind_pure

theorem reads_kadTag (t : KadTag) : Reads readKadTag (writeKadTag t) t.capped := by
  obtain ⟨name, value⟩ := t
  cases value with
  | int v => exact reads_intTag name v
  | str s => exact reads_tagOf (reads_stringU16 s).bind_pure
  | bsob b =>
    have hlen : (UInt8.ofNat (min b.length 255)).toNat = min b.length 255 :=
      UInt8.toNat_ofNat_of_lt' (by simp only [UInt8.size]; omega)
    have htake : b.take 255 = b.take (min b.length 255) := by
      rw [Nat.min_comm, ← List.take_take, List.take_length]
    have hbytes : (b.take (min b.length 255)).length = (UInt8.ofNat (min b.length 255)).toNat := by
      rw [hlen, List.length_take]
      omega
    have hvalue : Reads (readKadTagValue TT_BSOB)
        (writeU8 (UInt8.ofNat (min b.length 255)) ++ b.take (min b.length 255))
        (.bsob (b.take (min b.length 255))) :=
      (reads_u8 _).bind (reads_bytes _ hbytes).bind_pure
    rw [KadTag.capped, KadTagValue.capped, htake]
    exact reads_tagOf hvalue
  | hash h => exact reads_tagOf (reads_digest h).bind_pure
  | float bits => exact reads_tagOf (reads_u32 bits).bind_pure

theorem reads_kadTaglist {tags : List KadTag} (h : tags.length ≤ 255) :
    Reads readKadTaglist (writeKadTaglist tags) (tags.map KadTag.capped) := by
  have hlen : (UInt8.ofNat tags.length).toNat = tags.length :=
    UInt8.toNat_ofNat_of_lt' (by simp only [UInt8.size]; omega)
  refine (reads_u8 _).bind ?_
  rw [hlen]
  exact Reads.many_map fun t _ => reads_kadTag t

theorem reads_kadTaglist_of_writable {tags : List KadTag} (h : tags.length ≤ 255)
    (hwritable : ∀ t ∈ tags, t.value.Writable) :
    Reads readKadTaglist (writeKadTaglist tags) tags := by
  have hreads := reads_kadTaglist h
  rwa [List.map_congr_left fun t ht => KadTag.capped_of_writable (hwritable t ht),
    List.map_id'] at hreads

/-! ## Ids and contacts -/

def readId : Reader Kad128 := do return Kad128.fromWire (← readDigest 16)

/-- The id of the sender; there is at least one byte behind it. -/
def parseHelloResAck (payload : Bytes) : Except IoError Kad128 :=
  if payload.length < 17 then .error .unexpectedEof else readId.run' payload

/-- A contact as it stands on the wire. -/
structure WireContact where
  id : Kad128
  /-- In host order. -/
  ip : UInt32
  udpPort : UInt16
  tcpPort : UInt16
  version : UInt8
deriving DecidableEq

def readWireContact : Reader WireContact := do
  let id ← readId
  let ip ← readU32
  let udpPort ← readU16
  let tcpPort ← readU16
  let version ← readU8
  return ⟨id, ip, udpPort, tcpPort, version⟩

/-- 25 bytes. -/
def writeWireContact (c : WireContact) : Bytes :=
  c.id.toWire.bytes ++ (writeU32 c.ip ++ (writeU16 c.udpPort ++
    (writeU16 c.tcpPort ++ writeU8 c.version)))

theorem reads_id (id : Kad128) : Reads readId id.toWire.bytes id := by
  have h := (reads_digest id.toWire).bind_pure (f := Kad128.fromWire)
  rwa [Kad128.fromWire_toWire] at h

theorem reads_wireContact (c : WireContact) :
    Reads readWireContact (writeWireContact c) c :=
  (reads_id c.id).bind ((reads_u32 c.ip).bind ((reads_u16 c.udpPort).bind
    ((reads_u16 c.tcpPort).bind (reads_u8 c.version).bind_pure)))

theorem length_writeWireContact (c : WireContact) : (writeWireContact c).length = 25 := by
  simp [writeWireContact, writeU32, writeU16, writeU8, c.id.toWire.len]

/-! ## BOOTSTRAP_RES and KADEMLIA2_RES -/

structure BootstrapRes where
  id : Kad128
  tcpPort : UInt16
  version : UInt8
  contacts : List WireContact
deriving DecidableEq

def parseBootstrapRes (payload : Bytes) : Except IoError BootstrapRes :=
  let body : Reader BootstrapRes := do
    let id ← readId
    let tcpPort ← readU16
    let version ← readU8
    let count ← readU16
    let contacts ← readMany readWireContact count.toNat
    return ⟨id, tcpPort, version, contacts⟩
  body.run' payload

def buildBootstrapRes (id : Kad128) (tcpPort : UInt16) (version : UInt8)
    (contacts : List WireContact) : UInt8 × Bytes :=
  let contacts := contacts.take 65535
  (OP_BOOTSTRAP_RES,
    id.toWire.bytes ++ (writeU16 tcpPort ++ (writeU8 version ++
      (writeU16 (UInt16.ofNat contacts.length) ++ contacts.flatMap writeWireContact))))

structure Kad2Res where
  target : Kad128
  contacts : List WireContact
deriving DecidableEq

def buildKad2Res (target : Kad128) (contacts : List WireContact) : UInt8 × Bytes :=
  let contacts := contacts.take 255
  (OP_KAD2_RES,
    target.toWire.bytes ++ (writeU8 (UInt8.ofNat contacts.length) ++
      contacts.flatMap writeWireContact))

/-- The length must be exact; contacts of Kad1 (version ≤ 1) are dropped. -/
def parseKad2Res (payload : Bytes) : Except IoError Kad2Res :=
  let body : Reader Kad2Res := do
    let target ← readId
    let count ← readU8
    if payload.length ≠ 17 + 25 * count.toNat then throw .unexpectedEof
    else
      let contacts ← readMany readWireContact count.toNat
      return ⟨target, contacts.filter (1 < ·.version)⟩
  body.run' payload

theorem run'_of_reads {α : Type} {m : Reader α} {bs : Bytes} {a : α} (h : Reads m bs a) :
    m.run' bs = .ok a := by
  show Prod.fst <$> m bs = .ok a
  rw [h.run_nil]
  rfl

theorem parseBootstrapRes_build (id : Kad128) (tcpPort : UInt16) (version : UInt8)
    {contacts : List WireContact} (h : contacts.length ≤ 65535) :
    parseBootstrapRes (buildBootstrapRes id tcpPort version contacts).2 =
      .ok ⟨id, tcpPort, version, contacts⟩ := by
  have hlen : (UInt16.ofNat contacts.length).toNat = contacts.length :=
    UInt16.toNat_ofNat_of_lt' (by simp only [UInt16.size]; omega)
  have hcontacts : Reads (readMany readWireContact (UInt16.ofNat contacts.length).toNat)
      (contacts.flatMap writeWireContact) contacts := by
    rw [hlen]
    exact Reads.many fun c _ => reads_wireContact c
  rw [parseBootstrapRes, buildBootstrapRes, List.take_of_length_le h]
  exact run'_of_reads ((reads_id id).bind ((reads_u16 tcpPort).bind ((reads_u8 version).bind
    ((reads_u16 _).bind hcontacts.bind_pure))))

theorem parseKad2Res_build (target : Kad128) {contacts : List WireContact}
    (h : contacts.length ≤ 255) (hversion : ∀ c ∈ contacts, 1 < c.version) :
    parseKad2Res (buildKad2Res target contacts).2 = .ok ⟨target, contacts⟩ := by
  have hlen : (UInt8.ofNat contacts.length).toNat = contacts.length :=
    UInt8.toNat_ofNat_of_lt' (by simp only [UInt8.size]; omega)
  have hcontacts : Reads (readMany readWireContact (UInt8.ofNat contacts.length).toNat)
      (contacts.flatMap writeWireContact) contacts := by
    rw [hlen]
    exact Reads.many fun c _ => reads_wireContact c
  have hpayload : (target.toWire.bytes ++ (writeU8 (UInt8.ofNat contacts.length) ++
      contacts.flatMap writeWireContact)).length =
        17 + 25 * (UInt8.ofNat contacts.length).toNat := by
    have hcontact : contacts.map (fun c => (writeWireContact c).length) =
        List.replicate contacts.length 25 :=
      List.eq_replicate_iff.mpr ⟨List.length_map _, by simp [length_writeWireContact]⟩
    rw [hlen, List.length_append, List.length_append, List.length_flatMap, hcontact,
      List.sum_replicate, target.toWire.len]
    simp [writeU8]
    omega
  have hkept : contacts.filter (1 < ·.version) = contacts :=
    List.filter_eq_self.mpr fun c hc => decide_eq_true (hversion c hc)
  have hfiltered := hcontacts.bind_pure
    (f := fun cs => Kad2Res.mk target (cs.filter (1 < ·.version)))
  rw [hkept] at hfiltered
  rw [parseKad2Res, buildKad2Res, List.take_of_length_le h]
  refine run'_of_reads ((reads_id target).bind ((reads_u8 _).bind ?_))
  rw [if_neg (not_not.mpr hpayload)]
  exact hfiltered

/-! ## Keywords -/

/-- The characters between two keywords. -/
def INV_KAD_KEYWORD_CHARS : List Char := " ()[]\x7b\x7d<>,._-!?:;\\/\"".toList

def MIN_KEYWORD_BYTES : Nat := 3

section Keywords

variable (toLowercase : String → String)

/-- A token of three bytes or more is a word, at its last place. -/
def keepWord (words : List String) (tok : String) : List String :=
  if tok.utf8ByteSize < MIN_KEYWORD_BYTES then words
  else
    let w := toLowercase tok
    words.filter (· ≠ w) ++ [w]

def kadKeywords (phrase : String) : List String :=
  let toks := (phrase.toList.splitOnP (· ∈ INV_KAD_KEYWORD_CHARS)).map String.ofList
  let words := toks.foldl (keepWord toLowercase) []
  let last := toks.getLast?.getD ""
  -- three ASCII characters at the end are taken for the extension of a file
  if 1 < words.length ∧ last.length = 3 ∧ last.utf8ByteSize = 3 then words.dropLast else words

/-- Every word of the query is a word of the name. -/
def kadFilenameMatches (filename query : String) : Bool :=
  let words := kadKeywords toLowercase filename
  (kadKeywords toLowercase query).all fun w => w ∈ words

end Keywords

/-! ## SEARCH_RES, and what a result says of a source or a file -/

structure SearchResult where
  answer : Kad128
  tags : List KadTag
deriving DecidableEq

structure SearchRes where
  responder : Kad128
  target : Kad128
  results : List SearchResult
deriving DecidableEq

def readSearchResult : Reader SearchResult := do
  let answer ← readId
  let tags ← readKadTaglist
  return ⟨answer, tags⟩

def parseSearchRes (payload : Bytes) : Except IoError SearchRes :=
  let body : Reader SearchRes := do
    let responder ← readId
    let target ← readId
    let count ← readU16
    let results ← readMany readSearchResult count.toNat
    return ⟨responder, target, results⟩
  body.run' payload

def writeSearchResult (res : SearchResult) : Bytes :=
  res.answer.toWire.bytes ++ writeKadTaglist res.tags

def buildSearchRes (responder target : Kad128) (results : List SearchResult) : UInt8 × Bytes :=
  let results := results.take 65535
  (OP_SEARCH_RES,
    responder.toWire.bytes ++ (target.toWire.bytes ++
      (writeU16 (UInt16.ofNat results.length) ++ results.flatMap writeSearchResult)))

/-- Of several tags that `pick` takes something from, the last one counts. -/
def lastOf {α : Type} (pick : KadTag → Option α) (tags : List KadTag) : Option α :=
  tags.foldl (fun found t => (pick t).or found) none

def intTag (name : UInt8) : KadTag → Option UInt64
  | ⟨n, .int v⟩ => if n = name then some v else none
  | _ => none

structure Source where
  clientHash : Kad128
  sourceType : UInt8
  ip : Option UInt32
  tcpPort : Option UInt16
  udpPort : Option UInt16
  crypt : Option UInt8
deriving DecidableEq

def SearchResult.asSource (self : SearchResult) : Option Source := do
  let sourceType := (← lastOf (intTag TAG_SOURCETYPE) self.tags).toUInt8
  if sourceType ∉ [1, 3, 4, 5, 6] then none
  else
    some
      { clientHash := self.answer
        sourceType
        ip := (lastOf (intTag TAG_SOURCEIP) self.tags).map (·.toUInt32)
        tcpPort := (lastOf (intTag TAG_SOURCEPORT) self.tags).map (·.toUInt16)
        udpPort := (lastOf (intTag TAG_SOURCEUPORT) self.tags).map (·.toUInt16)
        crypt := (lastOf (intTag TAG_ENCRYPTION) self.tags).map (·.toUInt8) }

structure FileResult where
  hash : Hash16
  name : String
  size : UInt64
  sources : UInt32
deriving DecidableEq

def filenameTag : KadTag → Option String
  | ⟨n, .str s⟩ => if n = TAG_FILENAME then some (fromUtf8Lossy s) else none
  | _ => none

/-- An integer, or eight bytes. -/
def filesizeTag : KadTag → Option UInt64
  | ⟨n, .int v⟩ => if n = TAG_FILESIZE then some v else none
  | ⟨n, .bsob b⟩ =>
    if n = TAG_FILESIZE ∧ b.length = 8 then some (UInt64.ofNat (ofLE b)) else none
  | _ => none

def SearchResult.asFile (self : SearchResult) : Option FileResult := do
  let name ← lastOf filenameTag self.tags
  let size ← lastOf filesizeTag self.tags
  if size = 0 then none
  else
    let sources := ((lastOf (intTag TAG_SOURCES) self.tags).map (·.toUInt32)).getD 0
    some ⟨self.answer.toHash, name, size, sources⟩

theorem reads_searchResult {res : SearchResult} (h : res.tags.length ≤ 255) :
    Reads readSearchResult (writeSearchResult res) ⟨res.answer, res.tags.map KadTag.capped⟩ :=
  (reads_id res.answer).bind (reads_kadTaglist h).bind_pure

theorem reads_searchResult_of_writable {res : SearchResult} (h : res.tags.length ≤ 255)
    (hwritable : ∀ t ∈ res.tags, t.value.Writable) :
    Reads readSearchResult (writeSearchResult res) res :=
  (reads_id res.answer).bind (reads_kadTaglist_of_writable h hwritable).bind_pure

theorem parseSearchRes_build (responder target : Kad128) {results : List SearchResult}
    (h : results.length ≤ 65535)
    (htags : ∀ res ∈ results, res.tags.length ≤ 255 ∧ ∀ t ∈ res.tags, t.value.Writable) :
    parseSearchRes (buildSearchRes responder target results).2 =
      .ok ⟨responder, target, results⟩ := by
  have hlen : (UInt16.ofNat results.length).toNat = results.length :=
    UInt16.toNat_ofNat_of_lt' (by simp only [UInt16.size]; omega)
  have hresults : Reads (readMany readSearchResult (UInt16.ofNat results.length).toNat)
      (results.flatMap writeSearchResult) results := by
    rw [hlen]
    refine Reads.many fun res hres => ?_
    obtain ⟨hcount, hwritable⟩ := htags res hres
    exact reads_searchResult_of_writable hcount hwritable
  rw [parseSearchRes, buildSearchRes, List.take_of_length_le h]
  exact run'_of_reads ((reads_id responder).bind ((reads_id target).bind
    ((reads_u16 _).bind hresults.bind_pure)))

theorem lastOf_cons {α : Type} (pick : KadTag → Option α) (t : KadTag) (tags : List KadTag) :
    lastOf pick (t :: tags) = (lastOf pick tags).or (pick t) := by
  have hfold (found : Option α) : tags.foldl (fun found t => (pick t).or found) found =
      (lastOf pick tags).or found := by
    unfold lastOf
    induction tags generalizing found with
    | nil => simp
    | cons u us ih =>
      rw [List.foldl_cons, List.foldl_cons, ih, ih ((pick u).or none), Option.or_none,
        Option.or_assoc]
  rw [lastOf, List.foldl_cons, hfold, Option.or_none]

theorem lastOf_eq_none {α : Type} {pick : KadTag → Option α} {tags : List KadTag}
    (h : ∀ t ∈ tags, pick t = none) : lastOf pick tags = none := by
  induction tags with
  | nil => rfl
  | cons t tags ih =>
    obtain ⟨ht, htags⟩ := List.forall_mem_cons.mp h
    rw [lastOf_cons, ih htags, ht]
    rfl

/-! ## Publishing -/

/-- `str::as_bytes`. -/
def asBytes (s : String) : Bytes := s.toUTF8.data.toList

def PUBLISH_KEY_FILES_PER_PACKET : Nat := 50

/-- One shared file, as it is published under a keyword. -/
structure KeywordEntry where
  fileId : Kad128
  name : String
  size : UInt64
  completeSources : UInt32
  /-- Empty to omit. -/
  fileType : String
  aichRoot : Option Hash20
deriving DecidableEq

def KeywordEntry.tags (self : KeywordEntry) (targetKadVersion : UInt8) : List KadTag :=
  let size : KadTagValue :=
    if 0xFFFFFFFF < self.size then .bsob (writeU64 self.size) else .int self.size
  let aich : List KadTag :=
    match self.aichRoot with
    | some root =>
      if KADEMLIA_VERSION9_50A ≤ targetKadVersion then [⟨TAG_KADAICHHASHPUB, .bsob root.bytes⟩]
      else []
    | none => []
  let fileType : List KadTag :=
    if self.fileType.isEmpty then [] else [⟨TAG_FILETYPE, .str (asBytes self.fileType)⟩]
  ⟨TAG_FILENAME, .str (asBytes self.name)⟩ :: ⟨TAG_FILESIZE, size⟩ ::
    ⟨TAG_SOURCES, .int self.completeSources.toUInt64⟩ :: (aich ++ fileType)

def buildPublishKeyReq (keywordTarget : Kad128) (entries : List KeywordEntry)
    (targetKadVersion : UInt8) : UInt8 × Bytes :=
  let entries := entries.take PUBLISH_KEY_FILES_PER_PACKET
  (OP_PUBLISH_KEY_REQ,
    keywordTarget.toWire.bytes ++ (writeU16 (UInt16.ofNat entries.length) ++
      entries.flatMap fun e => e.fileId.toWire.bytes ++ writeKadTaglist (e.tags targetKadVersion)))

/-- What is published about ourselves as a source. -/
structure SourceEntry where
  size : UInt64
  tcpPort : UInt16
  udpPort : Option UInt16
  crypt : UInt8
deriving DecidableEq

/-- The tag list of `build_publish_source_req`. -/
def SourceEntry.tags (src : SourceEntry) : List KadTag :=
  let sourceType : UInt64 := if 0xFFFFFFFF < src.size then 4 else 1
  let uport : List KadTag :=
    match src.udpPort with
    | some uport => [⟨TAG_SOURCEUPORT, .int uport.toUInt64⟩]
    | none => []
  ⟨TAG_SOURCETYPE, .int sourceType⟩ :: ⟨TAG_SOURCEPORT, .int src.tcpPort.toUInt64⟩ ::
    (uport ++ [⟨TAG_FILESIZE, .int src.size⟩, ⟨TAG_ENCRYPTION, .int src.crypt.toUInt64⟩])

def buildPublishSourceReq (fileTarget ourClientHash : Kad128) (src : SourceEntry) :
    UInt8 × Bytes :=
  (OP_PUBLISH_SOURCE_REQ,
    fileTarget.toWire.bytes ++ (ourClientHash.toWire.bytes ++ writeKadTaglist src.tags))

structure PublishRes where
  fileId : Kad128
  load : UInt8
  wantsAck : Bool
deriving DecidableEq

/-- The options byte may be missing. -/
def readWantsAck : Reader Bool := fun r =>
  match readU8 r with
  | .ok (options, rest) => .ok (options &&& 0x01 ≠ 0, rest)
  | .error _ => .ok (false, r)

def parsePublishRes (payload : Bytes) : Except IoError PublishRes :=
  let body : Reader PublishRes := do
    let fileId ← readId
    let load ← readU8
    let wantsAck ← readWantsAck
    return ⟨fileId, load, wantsAck⟩
  body.run' payload

/-- A record of a publish request is laid out as a search result is. -/
def readPublishKeyReq : Reader (Kad128 × List SearchResult) := do
  let keywordTarget ← readId
  let count ← readU16
  let records ← readMany readSearchResult count.toNat
  return (keywordTarget, records)

def readPublishSourceReq : Reader (Kad128 × SearchResult) := do
  let fileTarget ← readId
  let record ← readSearchResult
  return (fileTarget, record)

theorem SourceEntry.writable_tags (src : SourceEntry) :
    src.tags.length ≤ 255 ∧ ∀ t ∈ src.tags, t.value.Writable := by
  obtain ⟨size, tcpPort, udpPort, crypt⟩ := src
  cases udpPort with
  | none => simp [SourceEntry.tags, KadTagValue.Writable]
  | some uport => simp [SourceEntry.tags, KadTagValue.Writable]

theorem SourceEntry.asSource_tags (src : SourceEntry) (answer : Kad128) :
    SearchResult.asSource ⟨answer, src.tags⟩ =
      some ⟨answer, if 0xFFFFFFFF < src.size then 4 else 1, none, some src.tcpPort, src.udpPort,
        some src.crypt⟩ := by
  obtain ⟨size, tcpPort, udpPort, crypt⟩ := src
  by_cases hlarge : 0xFFFFFFFF < size
  · cases udpPort <;>
      simp [SearchResult.asSource, SourceEntry.tags, lastOf, intTag, TAG_SOURCETYPE,
        TAG_SOURCEPORT, TAG_SOURCEUPORT, TAG_SOURCEIP, TAG_ENCRYPTION, TAG_FILESIZE, hlarge]
  · cases udpPort <;>
      simp [SearchResult.asSource, SourceEntry.tags, lastOf, intTag, TAG_SOURCETYPE,
        TAG_SOURCEPORT, TAG_SOURCEUPORT, TAG_SOURCEIP, TAG_ENCRYPTION, TAG_FILESIZE, hlarge]

/-- The tags behind the first three of a keyword entry. -/
def PublishedRest (rest : List KadTag) : Prop :=
  ∀ t ∈ rest, t.name = TAG_KADAICHHASHPUB ∨ t.name = TAG_FILETYPE

/-- What a file is told by its first three tags. -/
theorem asFile_of_tags (answer : Kad128) {name : String} {size : UInt64} {sizeValue : KadTagValue}
    (sources : UInt32) {rest : List KadTag} (hsize : size ≠ 0)
    (hvalue : filesizeTag ⟨TAG_FILESIZE, sizeValue⟩ = some size) (hrest : PublishedRest rest) :
    SearchResult.asFile ⟨answer, ⟨TAG_FILENAME, .str (asBytes name)⟩ :: ⟨TAG_FILESIZE, sizeValue⟩ ::
        ⟨TAG_SOURCES, .int sources.toUInt64⟩ :: rest⟩ =
      some ⟨answer.toHash, name, size, sources⟩ := by
  have hother {α : Type} {pick : KadTag → Option α}
      (haich : ∀ v, pick ⟨TAG_KADAICHHASHPUB, v⟩ = none)
      (htype : ∀ v, pick ⟨TAG_FILETYPE, v⟩ = none) : lastOf pick rest = none := by
    refine lastOf_eq_none fun t ht => ?_
    obtain ⟨n, v⟩ := t
    rcases hrest _ ht with rfl | rfl
    · exact haich v
    · exact htype v
  have hname : lastOf filenameTag rest = none :=
    hother (fun v => by cases v <;> rfl) (fun v => by cases v <;> rfl)
  have hfilesize : lastOf filesizeTag rest = none :=
    hother (fun v => by cases v <;> rfl) (fun v => by cases v <;> rfl)
  have hsources : lastOf (intTag TAG_SOURCES) rest = none :=
    hother (fun v => by cases v <;> rfl) (fun v => by cases v <;> rfl)
  have htext : filenameTag ⟨TAG_FILENAME, .str (asBytes name)⟩ = some name :=
    congrArg some (fromUtf8Lossy_toUTF8 name)
  have hnoname : filenameTag ⟨TAG_FILESIZE, sizeValue⟩ = none := by
    cases sizeValue <;> rfl
  have hnosources : intTag TAG_SOURCES ⟨TAG_FILESIZE, sizeValue⟩ = none := by
    cases sizeValue <;> rfl
  have hcount : intTag TAG_SOURCES ⟨TAG_SOURCES, .int sources.toUInt64⟩ =
      some sources.toUInt64 := rfl
  have hplain : filenameTag ⟨TAG_SOURCES, .int sources.toUInt64⟩ = none := rfl
  have hsized : filesizeTag ⟨TAG_SOURCES, .int sources.toUInt64⟩ = none := rfl
  simp [SearchResult.asFile, lastOf_cons, hname, hfilesize, hsources, hvalue, htext, hnoname,
    hnosources, hcount, hplain, hsized, hsize]

theorem KeywordEntry.tags_shape (e : KeywordEntry) (version : UInt8) :
    ∃ sizeValue rest,
      e.tags version = ⟨TAG_FILENAME, .str (asBytes e.name)⟩ :: ⟨TAG_FILESIZE, sizeValue⟩ ::
        ⟨TAG_SOURCES, .int e.completeSources.toUInt64⟩ :: rest ∧
      filesizeTag ⟨TAG_FILESIZE, sizeValue⟩ = some e.size ∧ sizeValue.Writable ∧
      rest.length ≤ 2 ∧ PublishedRest rest := by
  refine ⟨_, _, rfl, ?_, ?_, ?_, ?_⟩
  · split_ifs with hlarge
    · have hback : UInt64.ofNat (ofLE (writeU64 e.size)) = e.size := by
        rw [writeU64, ofLE_toLE (show e.size.toNat < 256 ^ 8 from e.size.toNat_lt),
          UInt64.ofNat_toNat]
      rw [filesizeTag, if_pos ⟨rfl, length_toLE 8 _⟩, hback]
    · rfl
  · split_ifs with hlarge
    · simp [KadTagValue.Writable, writeU64]
    · trivial
  · rw [List.length_append]
    split <;> split_ifs <;> simp
  · intro t ht
    rcases List.mem_append.mp ht with haich | htype
    · split at haich
      · split_ifs at haich
        · rw [List.mem_singleton.mp haich]
          exact .inl rfl
        · cases haich
      · cases haich
    · split_ifs at htype
      · cases htype
      · rw [List.mem_singleton.mp htype]
        exact .inr rfl

theorem KeywordEntry.asFile_tags {e : KeywordEntry} (hsize : e.size ≠ 0) (version : UInt8)
    (answer : Kad128) :
    SearchResult.asFile ⟨answer, e.tags version⟩ =
      some ⟨answer.toHash, e.name, e.size, e.completeSources⟩ := by
  obtain ⟨sizeValue, rest, htags, hvalue, -, -, hrest⟩ := e.tags_shape version
  rw [htags]
  exact asFile_of_tags answer _ hsize hvalue hrest

/-- The same over the wire, where only the file type may be cut. -/
theorem KeywordEntry.asFile_capped {e : KeywordEntry} (hsize : e.size ≠ 0)
    (hname : (asBytes e.name).length ≤ 65535) (version : UInt8) (answer : Kad128) :
    (e.tags version).length ≤ 255 ∧
      SearchResult.asFile ⟨answer, (e.tags version).map KadTag.capped⟩ =
        some ⟨answer.toHash, e.name, e.size, e.completeSources⟩ := by
  obtain ⟨sizeValue, rest, htags, hvalue, hwritable, hlen, hrest⟩ := e.tags_shape version
  have hnameTag : KadTag.capped ⟨TAG_FILENAME, .str (asBytes e.name)⟩ =
      ⟨TAG_FILENAME, .str (asBytes e.name)⟩ := KadTag.capped_of_writable hname
  have hsizeTag : KadTag.capped ⟨TAG_FILESIZE, sizeValue⟩ = ⟨TAG_FILESIZE, sizeValue⟩ :=
    KadTag.capped_of_writable hwritable
  have hcapped : PublishedRest (rest.map KadTag.capped) := by
    intro t ht
    obtain ⟨u, hu, rfl⟩ := List.mem_map.mp ht
    exact hrest u hu
  rw [htags, List.map_cons, List.map_cons, List.map_cons, hnameTag, hsizeTag]
  refine ⟨?_, asFile_of_tags answer _ hsize hvalue hcapped⟩
  simp only [List.length_cons]
  omega

/-- A publish request for keywords, read record by record as results of a search. -/
theorem asFile_publishKeyReq (keywordTarget : Kad128) {entries : List KeywordEntry}
    (version : UInt8)
    (h : ∀ e ∈ entries, e.size ≠ 0 ∧ (asBytes e.name).length ≤ 65535) :
    ∃ records,
      Reads readPublishKeyReq (buildPublishKeyReq keywordTarget entries version).2
        (keywordTarget, records) ∧
      records.map SearchResult.asFile =
        (entries.take PUBLISH_KEY_FILES_PER_PACKET).map fun e =>
          some ⟨e.fileId.toHash, e.name, e.size, e.completeSources⟩ := by
  have hkept : ∀ e ∈ entries.take PUBLISH_KEY_FILES_PER_PACKET,
      e.size ≠ 0 ∧ (asBytes e.name).length ≤ 65535 := fun e he => h e (List.mem_of_mem_take he)
  unfold buildPublishKeyReq
  dsimp only
  generalize hfew : entries.take PUBLISH_KEY_FILES_PER_PACKET = few at hkept
  have hcount : few.length ≤ 50 := by
    rw [← hfew]
    exact List.length_take_le _ _
  have hlen : (UInt16.ofNat few.length).toNat = few.length :=
    UInt16.toNat_ofNat_of_lt' (by simp only [UInt16.size]; omega)
  let record (e : KeywordEntry) : SearchResult := ⟨e.fileId, (e.tags version).map KadTag.capped⟩
  have hrecords : Reads (readMany readSearchResult (UInt16.ofNat few.length).toNat)
      (few.flatMap fun e => e.fileId.toWire.bytes ++ writeKadTaglist (e.tags version))
      (few.map record) := by
    rw [hlen]
    refine Reads.many_map fun e he => ?_
    obtain ⟨hsize, hname⟩ := hkept e he
    have hfits := (KeywordEntry.asFile_capped hsize hname version e.fileId).1
    exact @reads_searchResult ⟨e.fileId, e.tags version⟩ hfits
  refine ⟨few.map record,
    (reads_id keywordTarget).bind ((reads_u16 _).bind hrecords.bind_pure), ?_⟩
  rw [List.map_map]
  refine List.map_congr_left fun e he => ?_
  obtain ⟨hsize, hname⟩ := hkept e he
  exact (KeywordEntry.asFile_capped hsize hname version e.fileId).2

/-- What is built parses to what it was built from: KADEMLIA2_RES, BOOTSTRAP_RES and SEARCH_RES
    within their fields, the record of a published source read as a search result, and the
    records of published files, as they are made and as they come off the wire. -/
theorem kad_codecs_round_trip :
    (∀ target contacts, contacts.length ≤ 255 → (∀ c ∈ contacts, 1 < c.version) →
      parseKad2Res (buildKad2Res target contacts).2 = .ok ⟨target, contacts⟩) ∧
    (∀ id tcpPort version contacts, contacts.length ≤ 65535 →
      parseBootstrapRes (buildBootstrapRes id tcpPort version contacts).2 =
        .ok ⟨id, tcpPort, version, contacts⟩) ∧
    (∀ responder target results, results.length ≤ 65535 →
      (∀ res ∈ results, res.tags.length ≤ 255 ∧ ∀ t ∈ res.tags, t.value.Writable) →
      parseSearchRes (buildSearchRes responder target results).2 =
        .ok ⟨responder, target, results⟩) ∧
    (∀ fileTarget ourClientHash (src : SourceEntry), ∃ tags,
      Reads readPublishSourceReq (buildPublishSourceReq fileTarget ourClientHash src).2
        (fileTarget, ⟨ourClientHash, tags⟩) ∧
      ∀ answer, SearchResult.asSource ⟨answer, tags⟩ =
        some ⟨answer, if 0xFFFFFFFF < src.size then 4 else 1, none, some src.tcpPort,
          src.udpPort, some src.crypt⟩) ∧
    (∀ (e : KeywordEntry) version answer, e.size ≠ 0 → (asBytes e.name).length ≤ 65535 →
      SearchResult.asFile ⟨answer, e.tags version⟩ =
        some ⟨answer.toHash, e.name, e.size, e.completeSources⟩) ∧
    (∀ keywordTarget entries version,
      (∀ e ∈ entries, e.size ≠ 0 ∧ (asBytes e.name).length ≤ 65535) → ∃ records,
      Reads readPublishKeyReq (buildPublishKeyReq keywordTarget entries version).2
        (keywordTarget, records) ∧
      records.map SearchResult.asFile =
        (entries.take PUBLISH_KEY_FILES_PER_PACKET).map fun e =>
          some ⟨e.fileId.toHash, e.name, e.size, e.completeSources⟩) := by
  refine ⟨fun target _ h hversion => parseKad2Res_build target h hversion,
    fun id tcpPort version _ h => parseBootstrapRes_build id tcpPort version h,
    fun responder target _ h htags => parseSearchRes_build responder target h htags, ?_,
    fun _ version answer hsize _ => KeywordEntry.asFile_tags hsize version answer,
    fun keywordTarget _ version h => asFile_publishKeyReq keywordTarget version h⟩
  intro fileTarget ourClientHash src
  obtain ⟨hcount, hwritable⟩ := src.writable_tags
  have hrecord := @reads_searchResult_of_writable ⟨ourClientHash, src.tags⟩ hcount hwritable
  exact ⟨src.tags, (reads_id fileTarget).bind hrecord.bind_pure, src.asSource_tags⟩

/-- An integer at each width, a BSOB and a text; a file beyond 4 GiB under both versions. -/
theorem kad_codecs_round_trip_mixed :
    let id : Kad128 := ⟨1, 2, 3, 4⟩
    let contact : WireContact := ⟨id, 0x0A000001, 4672, 4662, 8⟩
    let tags : List KadTag :=
      [⟨1, .int 0xFF⟩, ⟨2, .int 0x100⟩, ⟨3, .int 0x10000⟩, ⟨4, .int 0x100000000⟩,
        ⟨5, .bsob [1, 2]⟩, ⟨6, .str [0x61]⟩]
    let file : KeywordEntry := ⟨id, "a.iso", 0x100000000, 3, "", some (Digest.fill 20 7)⟩
    parseKad2Res (buildKad2Res id [contact]).2 = .ok ⟨id, [contact]⟩ ∧
    parseBootstrapRes (buildBootstrapRes id 4662 8 [contact]).2 = .ok ⟨id, 4662, 8, [contact]⟩ ∧
    parseSearchRes (buildSearchRes id id [⟨id, tags⟩]).2 = .ok ⟨id, id, [⟨id, tags⟩]⟩ ∧
    SearchResult.asFile ⟨id, file.tags 8⟩ = some ⟨id.toHash, "a.iso", 0x100000000, 3⟩ ∧
    SearchResult.asFile ⟨id, file.tags 9⟩ = some ⟨id.toHash, "a.iso", 0x100000000, 3⟩ ∧
    ∃ records, Reads readPublishKeyReq (buildPublishKeyReq id [file] 9).2 (id, records) ∧
      records.map SearchResult.asFile = [some ⟨id.toHash, "a.iso", 0x100000000, 3⟩] := by
  intro id contact tags file
  obtain ⟨hkad2, hbootstrap, hsearch, -, hfile, hpublish⟩ := kad_codecs_round_trip
  have hsize : file.size ≠ 0 := by decide
  have hname : (asBytes file.name).length ≤ 65535 := by decide +kernel
  exact ⟨hkad2 id [contact] (by decide) (by decide), hbootstrap id 4662 8 [contact] (by decide),
    hsearch id id [⟨id, tags⟩] (by decide) (by decide), hfile file 8 id hsize hname,
    hfile file 9 id hsize hname,
    hpublish id [file] 9 (List.forall_mem_singleton.mpr ⟨hsize, hname⟩)⟩

end PadMule.Kad
