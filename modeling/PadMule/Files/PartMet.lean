import PadMule.Proto.Tag
import PadMule.Lib.Spans

/-
  `mule-files/src/part_met.rs`: metadata of one partial download.

  The reader knows three layouts. Version 0xE1, or version 0xE0 with `00 00 02 01` at
  offset 24, is "splitted": a u32 at offset 1 selects between the default field order
  (when it is zero) and an older one with the date at offset 2 and no part-hash count.
  The writer emits the default layout only.

  In the default layout bytes 24..28 are content: bytes 1..5 of the first part hash,
  or, with no part hash, the top of the tag count and the first tag's type byte. So a
  written 0xE0 file can carry the marker by accident (`PartMet.LooksOldStyle`), and
  with a non-zero date it is then read in the wrong layout. `readPartMet_writePartMet`
  is the round trip where that does not happen, `readPartMet_ne_of_isSplitted` the
  failure where it does.
-/

namespace PadMule.Files

open PadMule.Proto LittleEndian Readers

def PARTFILE_VERSION : UInt8 := 0xE0
def PARTFILE_VERSION_LARGEFILE : UInt8 := 0xE2
def PARTFILE_VERSION_EDONKEY : UInt8 := 0xE1

structure PartMet where
  version : UInt8
  date : UInt32
  fileHash : Hash16
  partHashes : List Hash16
  tags : List Tag
deriving DecidableEq

/-- The bytes the 0xE0 sniff looks for at offset 24. -/
def oldStyleMarker : Bytes := [0, 0, 2, 1]

/-- `splitted`: is the file in eDonkey's import layout? -/
def isSplitted (version : UInt8) (bytes : Bytes) : Bool :=
  version == PARTFILE_VERSION_EDONKEY ||
    (version == PARTFILE_VERSION && (bytes.drop 24).take 4 == oldStyleMarker)

/-- Hash, counted part hashes: the fields after the date in the default layout. -/
def readHashset : Reader (Hash16 × List Hash16) := do
  let fileHash ← readHash16
  let phcount ← readU16
  let partHashes ← readMany readHash16 phcount.toNat
  return (fileHash, partHashes)

/-- The date-to-part-hashes fields of a splitted file. -/
def readSplitted (bytes : Bytes) : Reader (UInt32 × Hash16 × List Hash16) := do
  let temp ← readU32
  if temp = 0 then
    return (0, ← readHashset)
  else if bytes.length < 2 then
    throw .unexpectedEof
  else
    -- start over two bytes into the file: the date overlaps the bytes just examined
    set (bytes.drop 2)
    let date ← readU32
    let fileHash ← readHash16
    return (date, fileHash, [])

/-- The same fields of a default-layout file. -/
def readDefault : Reader (UInt32 × Hash16 × List Hash16) := do
  let date ← readU32
  return (date, ← readHashset)

def readTags : Reader (List Tag) := do
  let tagcount ← readU32
  readMany readTag tagcount.toNat

/-- Date, file hash and part hashes, in whichever layout the file is in. -/
def readFields (version : UInt8) (bytes : Bytes) : Reader (UInt32 × Hash16 × List Hash16) :=
  if isSplitted version bytes then readSplitted bytes else readDefault

def readPartMetFrom (bytes : Bytes) : Reader PartMet := do
  let version ← readU8
  if version ≠ PARTFILE_VERSION ∧ version ≠ PARTFILE_VERSION_LARGEFILE ∧
      version ≠ PARTFILE_VERSION_EDONKEY then
    throw (.badTag version)
  else
    let fields ← readFields version bytes
    let tags ← readTags
    return { version, date := fields.1, fileHash := fields.2.1, partHashes := fields.2.2, tags }

/-- `read_part_met`; bytes after the last tag are ignored. -/
def readPartMet (bytes : Bytes) : Except IoError PartMet :=
  (readPartMetFrom bytes bytes).map Prod.fst

def writeHashset (fileHash : Hash16) (partHashes : List Hash16) : Bytes :=
  fileHash.bytes ++ (writeU16 (UInt16.ofNat partHashes.length) ++
    partHashes.flatMap Digest.bytes)

def writeTags (tags : List Tag) : Bytes :=
  writeU32 (UInt32.ofNat tags.length) ++ tags.flatMap writeTag

/-- `write_part_met`: always the default layout. -/
def writePartMet (pm : PartMet) : Bytes :=
  writeU8 pm.version ++ ((writeU32 pm.date ++ writeHashset pm.fileHash pm.partHashes) ++
    writeTags pm.tags)

/-! ## The default layout reads back -/

theorem reads_hashset (h : Hash16) {hs : List Hash16} (hle : hs.length ≤ 65535) :
    Reads readHashset (writeHashset h hs) (h, hs) := by
  have hlen : (UInt16.ofNat hs.length).toNat = hs.length :=
    UInt16.toNat_ofNat_of_lt' (by simp only [UInt16.size]; omega)
  refine (reads_hash16 h).bind ((reads_u16 _).bind ?_)
  rw [hlen]
  exact (Reads.many fun d _ => reads_hash16 d).bind_pure

theorem reads_default (date : UInt32) (h : Hash16) {hs : List Hash16} (hle : hs.length ≤ 65535) :
    Reads readDefault (writeU32 date ++ writeHashset h hs) (date, h, hs) :=
  (reads_u32 date).bind (reads_hashset h hle).bind_pure

/-- With date zero the splitted layout is the default one. -/
theorem reads_splitted_of_date_zero (bytes : Bytes) (h : Hash16) {hs : List Hash16}
    (hle : hs.length ≤ 65535) :
    Reads (readSplitted bytes) (writeU32 0 ++ writeHashset h hs) (0, h, hs) := by
  refine (reads_u32 0).bind ?_
  rw [if_pos rfl]
  exact (reads_hashset h hle).bind_pure

/-- As many tags come back as the u32 count says, each as its bytes read; the bytes of
    the rest stay unread. -/
theorem readTags_writeTags {ts : List Tag} (hw : ∀ t ∈ ts, t.capped.Writable) :
    ∃ rest, readTags (writeTags ts) =
      .ok ((ts.take (ts.length % 2 ^ 32)).map Tag.capped, rest) := by
  have hle : ts.length % 2 ^ 32 ≤ ts.length := Nat.mod_le ..
  have hcount : (UInt32.ofNat ts.length).toNat = (ts.take (ts.length % 2 ^ 32)).length := by
    rw [List.length_take, Nat.min_eq_left hle]
    exact UInt32.toNat_ofNat
  have hreads : Reads readTags (writeU32 (UInt32.ofNat ts.length) ++
      (ts.take (ts.length % 2 ^ 32)).flatMap writeTag)
      ((ts.take (ts.length % 2 ^ 32)).map Tag.capped) := by
    refine (reads_u32 _).bind ?_
    rw [hcount]
    exact Reads.many_map fun t ht => reads_tag_capped (hw t (List.mem_of_mem_take ht))
  refine ⟨(ts.drop (ts.length % 2 ^ 32)).flatMap writeTag, ?_⟩
  have h := hreads ((ts.drop (ts.length % 2 ^ 32)).flatMap writeTag)
  rwa [List.append_assoc, ← List.flatMap_append, List.take_append_drop] at h

theorem reads_tags {ts : List Tag} (hw : ∀ t ∈ ts, t.Writable) (hlt : ts.length < 2 ^ 32) :
    Reads readTags (writeTags ts) ts := by
  have hcount : (UInt32.ofNat ts.length).toNat = ts.length := UInt32.toNat_ofNat_of_lt' hlt
  refine (reads_u32 _).bind ?_
  rw [hcount]
  exact Reads.many fun t ht => reads_tag (hw t ht)

/-- What a written file reads back as, when it is not taken for a splitted one or its
    date is zero. -/
theorem readPartMet_writePartMet_capped {pm : PartMet}
    (hv : pm.version = PARTFILE_VERSION ∨ pm.version = PARTFILE_VERSION_LARGEFILE)
    (hp : pm.partHashes.length ≤ 65535) (hw : ∀ t ∈ pm.tags, t.capped.Writable)
    (hs : pm.date = 0 ∨ isSplitted pm.version (writePartMet pm) = false) :
    readPartMet (writePartMet pm) =
      .ok { pm with tags := (pm.tags.take (pm.tags.length % 2 ^ 32)).map Tag.capped } := by
  have hfields : Reads (readFields pm.version (writePartMet pm))
      (writeU32 pm.date ++ writeHashset pm.fileHash pm.partHashes)
      (pm.date, pm.fileHash, pm.partHashes) := by
    unfold readFields
    rcases hs with hd | hs
    · split
      · rw [hd]
        exact reads_splitted_of_date_zero _ _ hp
      · exact reads_default _ _ hp
    · rw [if_neg (by simp [hs])]
      exact reads_default _ _ hp
  obtain ⟨rest, htags⟩ := readTags_writeTags hw
  have hversion : ¬ (pm.version ≠ PARTFILE_VERSION ∧ pm.version ≠ PARTFILE_VERSION_LARGEFILE ∧
      pm.version ≠ PARTFILE_VERSION_EDONKEY) := by
    rcases hv with h | h <;> rw [h] <;> decide
  have hfrom : readPartMetFrom (writePartMet pm) (writePartMet pm) = .ok
      ({ pm with tags := (pm.tags.take (pm.tags.length % 2 ^ 32)).map Tag.capped }, rest) := by
    have hall : readU8 (writePartMet pm) = .ok (pm.version,
        (writeU32 pm.date ++ writeHashset pm.fileHash pm.partHashes) ++ writeTags pm.tags) :=
      reads_u8 pm.version _
    unfold readPartMetFrom
    rw [bind_ok hall, if_neg hversion, bind_ok (hfields _), bind_ok htags]
    rfl
  rw [readPartMet, hfrom]
  rfl

theorem readPartMet_writePartMet {pm : PartMet}
    (hv : pm.version = PARTFILE_VERSION ∨ pm.version = PARTFILE_VERSION_LARGEFILE)
    (hp : pm.partHashes.length ≤ 65535) (hw : ∀ t ∈ pm.tags, t.Writable)
    (hlt : pm.tags.length < 2 ^ 32)
    (hs : pm.date = 0 ∨ isSplitted pm.version (writePartMet pm) = false) :
    readPartMet (writePartMet pm) = .ok pm := by
  have hcap : ∀ t ∈ pm.tags, t.capped = t := fun t ht => Tag.capped_of_writable (hw t ht)
  rw [readPartMet_writePartMet_capped hv hp (fun t ht => (hcap t ht).symm ▸ hw t ht) hs,
    Nat.mod_eq_of_lt hlt, List.take_length, List.map_congr_left hcap, List.map_id']

/-! ## When the sniff fires on a written file -/

/-- The content of a written file carries the marker at offset 24: in its first part
    hash or, without part hashes, in its tag count and the first tag's type. -/
def PartMet.LooksOldStyle (pm : PartMet) : Prop :=
  match pm.partHashes, pm.tags with
  | h :: _, _ => (h.bytes.drop 1).take 4 = oldStyleMarker
  | [], [] => False
  | [], t :: ts => 0x02000000 ≤ (t :: ts).length ∧ (t :: ts).length < 0x02000100 ∧
      valueType t.value = TAGTYPE_HASH16

theorem length_writeU8 (v : UInt8) : (writeU8 v).length = 1 := length_toLE ..
theorem length_writeU16 (v : UInt16) : (writeU16 v).length = 2 := length_toLE ..
theorem length_writeU32 (v : UInt32) : (writeU32 v).length = 4 := length_toLE ..

/-- The 23 bytes before the part hashes. -/
theorem drop_writePartMet (pm : PartMet) :
    (writePartMet pm).drop 24 =
      (pm.partHashes.flatMap Digest.bytes ++ writeTags pm.tags).drop 1 := by
  have hhead : writePartMet pm = (writeU8 pm.version ++ writeU32 pm.date ++ pm.fileHash.bytes ++
      writeU16 (UInt16.ofNat pm.partHashes.length)) ++
      (pm.partHashes.flatMap Digest.bytes ++ writeTags pm.tags) := by
    simp only [writePartMet, writeHashset, List.append_assoc]
  have hlen : (writeU8 pm.version ++ writeU32 pm.date ++ pm.fileHash.bytes ++
      writeU16 (UInt16.ofNat pm.partHashes.length)).length = 23 := by
    simp only [List.length_append, length_writeU8, length_writeU16, length_writeU32,
      pm.fileHash.len]
  rw [hhead, List.drop_append, hlen, List.drop_eq_nil_of_le (by omega), List.nil_append]

theorem ofNat_eq_iff (n : Nat) (b : UInt8) : UInt8.ofNat n = b ↔ n % 256 = b.toNat := by
  constructor
  · rintro rfl
    simp
  · intro h
    apply UInt8.toNat.inj
    simpa using h

theorem marker_iff_looksOldStyle {pm : PartMet} (hlt : pm.tags.length < 2 ^ 32) :
    ((writePartMet pm).drop 24).take 4 = oldStyleMarker ↔ pm.LooksOldStyle := by
  rw [drop_writePartMet]
  unfold PartMet.LooksOldStyle
  cases hps : pm.partHashes with
  | cons h hs =>
    have hlen : 5 ≤ h.bytes.length := by rw [h.len]; decide
    simp only [List.flatMap_cons, List.append_assoc]
    rw [List.drop_append_of_le_length (by omega),
      List.take_append_of_le_length (by rw [List.length_drop]; omega)]
  | nil =>
    cases hts : pm.tags with
    | nil => simp [writeTags, oldStyleMarker, writeU32, toLE]
    | cons t ts =>
      rw [hts] at hlt
      have hn : (UInt32.ofNat (t :: ts).length).toNat = (t :: ts).length :=
        UInt32.toNat_ofNat_of_lt' hlt
      have hv : writeU8 (valueType t.value) = [valueType t.value] := by
        simp [writeU8, toLE]
      simp only [List.flatMap_nil, List.nil_append, writeTags, writeU32, hn, toLE,
        List.flatMap_cons, writeTag, hv, List.cons_append, List.drop_succ_cons, List.drop_zero,
        List.take_succ_cons, List.take_zero, oldStyleMarker, List.cons.injEq, ofNat_eq_iff,
        TAGTYPE_HASH16]
      generalize (t :: ts).length = n at hlt ⊢
      have h0 : (0 : UInt8).toNat = 0 := rfl
      have h2 : (2 : UInt8).toNat = 2 := rfl
      rw [h0, h2]
      constructor
      · rintro ⟨h1, h2, h3, h4, -⟩
        exact ⟨by omega, by omega, h4⟩
      · rintro ⟨h1, h2, h3⟩
        exact ⟨by omega, by omega, by omega, h3, trivial⟩

/-- A list that reads the same one place further on, with a zero coming in, starts
    with a zero. -/
theorem head_eq_zero_of_shift {a : UInt8} {l : Bytes} (h : l ++ [0] = a :: l) : a = 0 := by
  induction l generalizing a with
  | nil => simpa [eq_comm] using h
  | cons b l ih =>
    obtain ⟨hba, hl⟩ := List.cons.inj h
    rw [← hba]
    exact ih hl

theorem ofLE_append_zero (l : Bytes) : ofLE (l ++ [0]) = ofLE l := by
  induction l with
  | nil => rfl
  | cons b l ih => rw [List.cons_append, ofLE, ofLE, ih]

theorem readBytes_ok {n : Nat} {s s' bs : Bytes} (h : readBytes n s = .ok (bs, s')) :
    bs = s.take n ∧ s' = s.drop n := by
  unfold readBytes at h
  split at h
  · cases h; exact ⟨rfl, rfl⟩
  · cases h

theorem readU32_ok {s s' : Bytes} {v : UInt32} (h : readU32 s = .ok (v, s')) :
    v = UInt32.ofNat (ofLE (s.take 4)) ∧ s' = s.drop 4 := by
  obtain ⟨bs, s₁, hbs, h⟩ := ok_bind h
  obtain ⟨rfl, rfl⟩ := readBytes_ok hbs
  cases h
  exact ⟨rfl, rfl⟩

theorem readHash16_ok {s s' : Bytes} {d : Hash16} (h : readHash16 s = .ok (d, s')) :
    d.bytes = s.take 16 ∧ s' = s.drop 16 := by
  unfold readHash16 at h
  split at h
  · cases h; exact ⟨rfl, rfl⟩
  · cases h

/-- What a successful read went through. -/
theorem readPartMet_ok {bytes : Bytes} {pm : PartMet} (h : readPartMet bytes = .ok pm) :
    ∃ s₁ s₂ s₃, readU8 bytes = .ok (pm.version, s₁) ∧
      readFields pm.version bytes s₁ = .ok ((pm.date, pm.fileHash, pm.partHashes), s₂) ∧
      readTags s₂ = .ok (pm.tags, s₃) := by
  obtain ⟨rest, hr⟩ := ok_map_fst h
  obtain ⟨v, s₁, hv, hr⟩ := ok_bind hr
  split at hr
  · cases hr
  · obtain ⟨fields, s₂, hf, hr⟩ := ok_bind hr
    obtain ⟨tags, s₃, ht, hr⟩ := ok_bind hr
    cases hr
    exact ⟨s₁, s₂, rest, hv, hf, ht⟩

/-- The counts in front of the part hashes and the tags bound what is read. -/
theorem length_of_readHashset {s s' : Bytes} {h : Hash16} {hs : List Hash16}
    (hread : readHashset s = .ok ((h, hs), s')) : hs.length ≤ 65535 := by
  obtain ⟨fileHash, s₁, -, hread⟩ := ok_bind hread
  obtain ⟨phcount, s₂, -, hread⟩ := ok_bind hread
  obtain ⟨partHashes, s₃, hmany, hread⟩ := ok_bind hread
  cases hread
  have hlt : phcount.toNat < 2 ^ 16 := phcount.toNat_lt
  rw [length_of_readMany hmany]
  omega

theorem length_of_readTags {s s' : Bytes} {ts : List Tag} (h : readTags s = .ok (ts, s')) :
    ts.length < 2 ^ 32 := by
  obtain ⟨tagcount, s₁, -, h⟩ := ok_bind h
  rw [length_of_readMany h]
  exact tagcount.toNat_lt

theorem writable_of_readTags {s s' : Bytes} {ts : List Tag} (h : readTags s = .ok (ts, s')) :
    ∀ t ∈ ts, t.Writable := by
  obtain ⟨tagcount, s₁, -, h⟩ := ok_bind h
  exact forall_of_readMany (fun _ _ _ ht => writable_of_readTag ht) h

theorem tags_length_lt {bytes : Bytes} {pm : PartMet} (h : readPartMet bytes = .ok pm) :
    pm.tags.length < 2 ^ 32 := by
  obtain ⟨-, s₂, s₃, -, -, ht⟩ := readPartMet_ok h
  exact length_of_readTags ht

/-- What the older splitted layout reads: four bytes of date, sixteen of hash from
    offset 2, no part hashes. -/
theorem readSplitted_ok {bytes s s' : Bytes} {temp : UInt32} {r : UInt32 × Hash16 × List Hash16}
    (hs : readU32 s = .ok (temp, s')) (ht : temp ≠ 0) {s'' : Bytes}
    (h : readSplitted bytes s = .ok (r, s'')) :
    r.1 = UInt32.ofNat (ofLE ((bytes.drop 2).take 4)) ∧
      r.2.1.bytes = (bytes.drop 6).take 16 ∧ r.2.2 = [] := by
  obtain ⟨temp', s₁, htemp, h⟩ := ok_bind h
  rw [hs] at htemp
  cases htemp
  rw [if_neg ht] at h
  split at h
  · cases h
  · obtain ⟨u, s₂, hset, h⟩ := ok_bind h
    cases hset
    obtain ⟨date, s₃, hd, h⟩ := ok_bind h
    obtain ⟨fileHash, s₄, hh, h⟩ := ok_bind h
    cases h
    obtain ⟨rfl, rfl⟩ := readU32_ok hd
    obtain ⟨hh, -⟩ := readHash16_ok hh
    rw [List.drop_drop] at hh
    exact ⟨rfl, hh, rfl⟩

/-- Read in the older layout, a written file with a non-zero date never comes back:
    the hash would have to equal itself shifted by one byte, hence be zero, and the
    date its own upper three bytes. -/
theorem readPartMet_ne_of_isSplitted {pm : PartMet} (hd : pm.date ≠ 0)
    (hs : isSplitted pm.version (writePartMet pm) = true) :
    readPartMet (writePartMet pm) ≠ .ok pm := by
  intro h
  obtain ⟨s₁, s₂, -, hv, hf, -⟩ := readPartMet_ok h
  rw [readFields, if_pos hs] at hf
  have hv' := reads_u8 pm.version ((writeU32 pm.date ++ writeHashset pm.fileHash pm.partHashes) ++
    writeTags pm.tags)
  rw [show writeU8 pm.version ++ _ = writePartMet pm from rfl, hv] at hv'
  cases hv'
  have hdate := reads_u32 pm.date (writeHashset pm.fileHash pm.partHashes ++ writeTags pm.tags)
  rw [← List.append_assoc] at hdate
  obtain ⟨hdate', hhash, hnil⟩ := readSplitted_ok hdate hd hf
  dsimp only at hdate' hhash hnil
  -- bytes from offset 2 on: three of the date, the hash, the zero part-hash count
  have hdrop : (writePartMet pm).drop 2 = toLE 3 (pm.date.toNat / 256) ++
      (pm.fileHash.bytes ++ (0 :: 0 :: writeTags pm.tags)) := by
    simp [writePartMet, writeHashset, hnil, writeU8, writeU16, writeU32, toLE]
  have hlen := pm.fileHash.len
  cases hb : pm.fileHash.bytes with
  | nil => rw [hb] at hlen; cases hlen
  | cons h₀ t =>
    rw [hb] at hdrop hlen hhash
    have htlen : t.length = 15 := by simpa using hlen
    have hdrop6 : (writePartMet pm).drop 6 = t ++ [0] ++ (0 :: writeTags pm.tags) := by
      have h26 : (writePartMet pm).drop 6 = ((writePartMet pm).drop 2).drop 4 := by
        rw [List.drop_drop]
      rw [h26, hdrop]
      simp [toLE]
    have hshift : t ++ [0] = h₀ :: t := by
      rw [hdrop6, List.take_left' (by simp [htlen])] at hhash
      exact hhash.symm
    have hzero := head_eq_zero_of_shift hshift
    have htake : ((writePartMet pm).drop 2).take 4 = toLE 3 (pm.date.toNat / 256) ++ [0] := by
      rw [hdrop, hzero]
      simp [toLE]
    have hlt : pm.date.toNat < 2 ^ 32 := pm.date.toNat_lt
    have hdate'' : pm.date = UInt32.ofNat (pm.date.toNat / 256) := by
      rw [htake, ofLE_append_zero, ofLE_toLE (by omega)] at hdate'
      exact hdate'
    have hnat : pm.date.toNat = pm.date.toNat / 256 := by
      have := congrArg UInt32.toNat hdate''
      rwa [UInt32.toNat_ofNat_of_lt' (by simp only [UInt32.size]; omega)] at this
    apply hd
    apply UInt32.toNat.inj
    show pm.date.toNat = 0
    omega

/-! ## The exact round trip -/

/-- A written part.met in the default layout reads back as itself exactly when its
    tag count fits the u32 field and the version-0xE0 sniff does not mistake a dated
    file for an old-style one. -/
theorem readPartMet_writePartMet_iff (pm : PartMet)
    (hv : pm.version = PARTFILE_VERSION ∨ pm.version = PARTFILE_VERSION_LARGEFILE)
    (hp : pm.partHashes.length ≤ 65535) (hw : ∀ t ∈ pm.tags, t.Writable) :
    readPartMet (writePartMet pm) = .ok pm ↔
      pm.tags.length < 2 ^ 32 ∧
        ¬ (pm.version = PARTFILE_VERSION ∧ pm.date ≠ 0 ∧ pm.LooksOldStyle) := by
  constructor
  · intro h
    have hlt := tags_length_lt h
    refine ⟨hlt, fun ⟨hE0, hd, hlooks⟩ => readPartMet_ne_of_isSplitted hd ?_ h⟩
    have hm := (marker_iff_looksOldStyle hlt).mpr hlooks
    simp [isSplitted, hE0, hm]
  · rintro ⟨hlt, hlooks⟩
    refine readPartMet_writePartMet hv hp hw hlt ?_
    by_cases hd : pm.date = 0
    · exact Or.inl hd
    · right
      rw [← marker_iff_looksOldStyle hlt] at hlooks
      rcases hv with h | h
      · have hm : ¬ ((writePartMet pm).drop 24).take 4 = oldStyleMarker :=
          fun hm => hlooks ⟨h, hd, hm⟩
        simp only [isSplitted, h, Bool.or_eq_false_iff, Bool.and_eq_false_imp,
          beq_eq_false_iff_ne]
        exact ⟨by decide, fun _ => hm⟩
      · simp [isSplitted, h, PARTFILE_VERSION, PARTFILE_VERSION_LARGEFILE,
          PARTFILE_VERSION_EDONKEY]

/-- A fresh 500-byte download as aMule writes it, date included. -/
def freshMet : PartMet where
  version := PARTFILE_VERSION
  date := 0x44332211
  fileHash := Digest.fill 16 0xAB
  partHashes := []
  tags := [Tag.ofId 0x02 (.u32 500), ⟨.str [0x09, 0x30], .u32 0⟩, ⟨.str [0x0A, 0x30], .u32 500⟩]

theorem freshMet_reads_back : readPartMet (writePartMet freshMet) = .ok freshMet :=
  (readPartMet_writePartMet_iff freshMet (Or.inl rfl) (by decide) (by decide)).mpr
    ⟨by decide, fun h => absurd h.2.2.1 (by decide)⟩

/-- A dated 0xE0 file whose first part hash holds `00 00 02 01` from its second byte. -/
def markerMet : PartMet where
  version := PARTFILE_VERSION
  date := 1
  fileHash := Digest.fill 16 0
  partHashes := [⟨[0, 0, 0, 2, 1, 0, 0, 0, 0, 0, 0, 0, 0, 0, 0, 0], rfl⟩]
  tags := []

theorem part_met_round_trip_fails :
    ¬ ∀ pm : PartMet, (pm.version = PARTFILE_VERSION ∨ pm.version = PARTFILE_VERSION_LARGEFILE) →
      pm.partHashes.length ≤ 65535 → (∀ t ∈ pm.tags, t.Writable) →
      readPartMet (writePartMet pm) = .ok pm :=
  fun h => readPartMet_ne_of_isSplitted (show markerMet.date ≠ 0 by decide) (by decide)
    (h markerMet (Or.inl rfl) (by decide) (by decide))

end PadMule.Files
