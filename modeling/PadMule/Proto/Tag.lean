import PadMule.Proto.Io

/-
  `mule-proto/src/tag.rs`: MET-format tags.

  The reader accepts the compact short form and the inline strings STR1..STR16; the
  writer emits neither. A one-byte string name is not representable: the format
  reserves name length 1 for a numeric id. `Tag.Writable` says which tags the writer
  can represent. Any other tag reads back as another one (`Tag.readBack`), from exactly the
  bytes that were written for it (`reads_tag_any`), so no tag desyncs the next one.
-/

namespace PadMule.Proto

open LittleEndian Readers

inductive TagName where
  | id (id : UInt8)
  | str (bytes : Bytes)
deriving DecidableEq, Repr

/-- A typed value; `f32` is kept as its four bytes' bit pattern. -/
inductive TagValue where
  | u8 (x : UInt8)
  | u16 (x : UInt16)
  | u32 (x : UInt32)
  | u64 (x : UInt64)
  | f32 (bits : UInt32)
  | hash (h : Hash16)
  | str (b : Bytes)
  | blob (b : Bytes)
  | bsob (b : Bytes)
  | bool (x : UInt8)
  | boolArray (bitLen : UInt16) (data : Bytes)
deriving DecidableEq

structure Tag where
  name : TagName
  value : TagValue
deriving DecidableEq

/-- `Tag::id`. -/
def Tag.ofId (id : UInt8) (value : TagValue) : Tag := ⟨.id id, value⟩

def TAGTYPE_HASH16 : UInt8 := 0x01
def TAGTYPE_STRING : UInt8 := 0x02
def TAGTYPE_UINT32 : UInt8 := 0x03
def TAGTYPE_FLOAT32 : UInt8 := 0x04
def TAGTYPE_BOOL : UInt8 := 0x05
def TAGTYPE_BOOLARRAY : UInt8 := 0x06
def TAGTYPE_BLOB : UInt8 := 0x07
def TAGTYPE_UINT16 : UInt8 := 0x08
def TAGTYPE_UINT8 : UInt8 := 0x09
def TAGTYPE_BSOB : UInt8 := 0x0A
def TAGTYPE_UINT64 : UInt8 := 0x0B
def TAGTYPE_STR1 : UInt8 := 0x11
def TAGTYPE_STR16 : UInt8 := 0x20

/-- Sixteen raw bytes as a hash. -/
def readHash16 : Reader Hash16 := fun r =>
  if h : 16 ≤ r.length then .ok (⟨r.take 16, by simp [h]⟩, r.drop 16) else .error .unexpectedEof

/-- Payload length of a BOOLARRAY of `bitLen` bits, one byte more than it needs. -/
def boolArrayLen (bitLen : UInt16) : Nat := (bitLen / 8).toNat + 1

def readValue (tagtype : UInt8) : Reader TagValue :=
  if tagtype = TAGTYPE_HASH16 then do return .hash (← readHash16)
  else if tagtype = TAGTYPE_STRING then do return .str (← readStringU16)
  else if tagtype = TAGTYPE_UINT32 then do return .u32 (← readU32)
  else if tagtype = TAGTYPE_FLOAT32 then do return .f32 (← readU32)
  else if tagtype = TAGTYPE_BOOL then do return .bool (← readU8)
  else if tagtype = TAGTYPE_BOOLARRAY then do
    let bitLen ← readU16
    return .boolArray bitLen (← readBytes (boolArrayLen bitLen))
  else if tagtype = TAGTYPE_BLOB then do
    let len ← readU32
    return .blob (← readBytes len.toNat)
  else if tagtype = TAGTYPE_UINT16 then do return .u16 (← readU16)
  else if tagtype = TAGTYPE_UINT8 then do return .u8 (← readU8)
  else if tagtype = TAGTYPE_BSOB then do
    let len ← readU8
    return .bsob (← readBytes len.toNat)
  else if tagtype = TAGTYPE_UINT64 then do return .u64 (← readU64)
  else if TAGTYPE_STR1 ≤ tagtype ∧ tagtype ≤ TAGTYPE_STR16 then do
    return .str (← readBytes (tagtype - TAGTYPE_STR1 + 1).toNat)
  else throw (.badTag tagtype)

/-- The name in front of a value: the compact form has the type's high bit set. -/
def readTagHead : Reader (UInt8 × TagName) := do
  let rawType ← readU8
  if rawType &&& 0x80 ≠ 0 then
    return (rawType &&& 0x7f, .id (← readU8))
  else
    let namelen ← readU16
    if namelen = 1 then
      return (rawType, .id (← readU8))
    else
      return (rawType, .str (← readBytes namelen.toNat))

def readTag : Reader Tag := do
  let head ← readTagHead
  let value ← readValue head.1
  return ⟨head.2, value⟩

def valueType : TagValue → UInt8
  | .u8 _ => TAGTYPE_UINT8
  | .u16 _ => TAGTYPE_UINT16
  | .u32 _ => TAGTYPE_UINT32
  | .u64 _ => TAGTYPE_UINT64
  | .f32 _ => TAGTYPE_FLOAT32
  | .hash _ => TAGTYPE_HASH16
  | .str _ => TAGTYPE_STRING
  | .blob _ => TAGTYPE_BLOB
  | .bsob _ => TAGTYPE_BSOB
  | .bool _ => TAGTYPE_BOOL
  | .boolArray _ _ => TAGTYPE_BOOLARRAY

def writeValue : TagValue → Bytes
  | .u8 x => writeU8 x
  | .u16 x => writeU16 x
  | .u32 x => writeU32 x
  | .u64 x => writeU64 x
  | .f32 bits => writeU32 bits
  | .hash h => h.bytes
  | .str b => writeStringU16 b
  | .blob b =>
    let n := min b.length (2 ^ 32 - 1)
    writeU32 (UInt32.ofNat n) ++ b.take n
  | .bsob b =>
    let n := min b.length 255
    writeU8 (UInt8.ofNat n) ++ b.take n
  | .bool x => writeU8 x
  | .boolArray bitLen data =>
    -- capped or zero-padded to the length the reader derives from `bitLen`
    let n := boolArrayLen bitLen
    let take := min n data.length
    writeU16 bitLen ++ data.take take ++ List.replicate (n - take) 0

def writeTagName : TagName → Bytes
  | .id id => writeU16 1 ++ writeU8 id
  | .str bytes => writeStringU16 bytes

/-- `write_tag`: the non-compact form. -/
def writeTag (tag : Tag) : Bytes :=
  writeU8 (valueType tag.value) ++ writeTagName tag.name ++ writeValue tag.value

/-! ## What the writer can represent -/

def TagName.Writable : TagName → Prop
  | .id _ => True
  | .str b => b.length ≤ 65535 ∧ b.length ≠ 1

def TagValue.Writable : TagValue → Prop
  | .str b => b.length ≤ 65535
  | .blob b => b.length < 2 ^ 32
  | .bsob b => b.length ≤ 255
  | .boolArray bitLen data => data.length = boolArrayLen bitLen
  | _ => True

/-- Lengths within their prefixes, no one-byte string name, BOOLARRAY data of its
    declared length. -/
structure Tag.Writable (t : Tag) : Prop where
  name : t.name.Writable
  value : t.value.Writable

instance TagName.decWritable : (n : TagName) → Decidable n.Writable
  | .id _ => isTrue trivial
  | .str b => inferInstanceAs (Decidable (b.length ≤ 65535 ∧ b.length ≠ 1))

instance TagValue.decWritable : (v : TagValue) → Decidable v.Writable
  | .str b => inferInstanceAs (Decidable (b.length ≤ 65535))
  | .blob b => inferInstanceAs (Decidable (b.length < 2 ^ 32))
  | .bsob b => inferInstanceAs (Decidable (b.length ≤ 255))
  | .boolArray bitLen data => inferInstanceAs (Decidable (data.length = boolArrayLen bitLen))
  | .u8 _ | .u16 _ | .u32 _ | .u64 _ | .f32 _ | .hash _ | .bool _ => isTrue trivial

instance (t : Tag) : Decidable t.Writable :=
  decidable_of_iff (t.name.Writable ∧ t.value.Writable)
    ⟨fun h => ⟨h.1, h.2⟩, fun h => ⟨h.name, h.value⟩⟩

/-! ## The reader inverts the writer -/

theorem reads_hash16 (h : Hash16) : Reads readHash16 h.bytes h := by
  intro rest
  have hlen : 16 ≤ (h.bytes ++ rest).length := by
    rw [List.length_append, h.len]
    omega
  have htake : (h.bytes ++ rest).take 16 = h.bytes := List.take_left' h.len
  have hdrop : (h.bytes ++ rest).drop 16 = rest := List.drop_left' h.len
  rw [readHash16, dif_pos hlen, hdrop]
  exact congrArg (fun d => Except.ok (d, rest)) (Digest.ext_bytes htake)

/-- What a written name reads back as: one byte is a numeric id. -/
def TagName.readBack : TagName → TagName
  | .id i => .id i
  | .str [x] => .id x
  | .str b => .str (b.take 65535)

/-- What a written value reads back as: cut where its prefix ends, and a BOOLARRAY
    brought to the length its reader derives. -/
def TagValue.readBack : TagValue → TagValue
  | .str b => .str (b.take 65535)
  | .blob b => .blob (b.take (2 ^ 32 - 1))
  | .bsob b => .bsob (b.take 255)
  | .boolArray bitLen data =>
    .boolArray bitLen
      (data.take (boolArrayLen bitLen) ++ List.replicate (boolArrayLen bitLen - data.length) 0)
  | v => v

def Tag.readBack (t : Tag) : Tag := ⟨t.name.readBack, t.value.readBack⟩

theorem TagName.readBack_of_writable {n : TagName} (h : n.Writable) : n.readBack = n := by
  cases n with
  | id id => rfl
  | str b =>
    obtain ⟨hle, hne⟩ := h
    match b with
    | [] => rfl
    | [x] => exact absurd rfl hne
    | x :: y :: b => exact congrArg TagName.str (List.take_of_length_le hle)

theorem TagValue.readBack_of_writable {v : TagValue} (h : v.Writable) : v.readBack = v := by
  cases v with
  | str b => exact congrArg TagValue.str (List.take_of_length_le h)
  | blob b =>
    have hb : b.length < 2 ^ 32 := h
    exact congrArg TagValue.blob (List.take_of_length_le (by omega))
  | bsob b => exact congrArg TagValue.bsob (List.take_of_length_le h)
  | boolArray bitLen data =>
    have hd : data.length = boolArrayLen bitLen := h
    simp [readBack, ← hd]
  | _ => rfl

theorem Tag.readBack_of_writable {t : Tag} (h : t.Writable) : t.readBack = t := by
  rw [readBack, TagName.readBack_of_writable h.name, TagValue.readBack_of_writable h.value]

theorem take_min_length (b : Bytes) (cap : Nat) : b.take (min b.length cap) = b.take cap :=
  List.take_eq_take_iff.mpr (by omega)

/-- The reader takes exactly the bytes of a value, whatever the value. -/
theorem reads_value_any (v : TagValue) :
    Reads (readValue (valueType v)) (writeValue v) v.readBack := by
  cases v with
  | u8 x => exact (reads_u8 x).bind_pure
  | u16 x => exact (reads_u16 x).bind_pure
  | u32 x => exact (reads_u32 x).bind_pure
  | u64 x => exact (reads_u64 x).bind_pure
  | f32 x => exact (reads_u32 x).bind_pure
  | hash d => exact (reads_hash16 d).bind_pure
  | str b => exact (reads_stringU16 b).bind_pure
  | blob b =>
    have hlen : (UInt32.ofNat (min b.length (2 ^ 32 - 1))).toNat = min b.length (2 ^ 32 - 1) :=
      UInt32.toNat_ofNat_of_lt' (by simp only [UInt32.size]; omega)
    simp only [writeValue, take_min_length]
    refine (reads_u32 _).bind (reads_bytes (b.take (2 ^ 32 - 1)) ?_).bind_pure
    rw [hlen, List.length_take, Nat.min_comm]
  | bsob b =>
    have hlen : (UInt8.ofNat (min b.length 255)).toNat = min b.length 255 :=
      UInt8.toNat_ofNat_of_lt' (by simp only [UInt8.size]; omega)
    simp only [writeValue, take_min_length]
    refine (reads_u8 _).bind (reads_bytes (b.take 255) ?_).bind_pure
    rw [hlen, List.length_take, Nat.min_comm]
  | bool x => exact (reads_u8 x).bind_pure
  | boolArray bitLen data =>
    have htake : data.take (min (boolArrayLen bitLen) data.length) =
        data.take (boolArrayLen bitLen) := by rw [Nat.min_comm, take_min_length]
    have hpad : boolArrayLen bitLen - min (boolArrayLen bitLen) data.length =
        boolArrayLen bitLen - data.length := by omega
    simp only [writeValue, htake, hpad, List.append_assoc]
    refine (reads_u16 bitLen).bind (reads_bytes _ ?_).bind_pure
    rw [List.length_append, List.length_take, List.length_replicate]
    omega

/-- What a written value reads back as: a string is cut at the largest length its
    prefix holds. -/
def TagValue.capped : TagValue → TagValue
  | .str b => .str (b.take 65535)
  | v => v

def Tag.capped (t : Tag) : Tag := ⟨t.name, t.value.capped⟩

theorem TagValue.capped_of_writable {v : TagValue} (h : v.Writable) : v.capped = v := by
  cases v with
  | str b => exact congrArg TagValue.str (List.take_of_length_le h)
  | _ => rfl

theorem Tag.capped_of_writable {t : Tag} (h : t.Writable) : t.capped = t := by
  rw [Tag.capped, TagValue.capped_of_writable h.value]

/-- Where only a string is too long, cutting it is all that happens. -/
theorem TagValue.readBack_of_capped {v : TagValue} (h : v.capped.Writable) :
    v.readBack = v.capped := by
  cases v with
  | str b => rfl
  | _ => exact readBack_of_writable h

theorem valueType_high_bit (v : TagValue) : valueType v &&& 0x80 = 0 := by
  cases v <;> dsimp only [valueType] <;> decide

theorem reads_tagHead_any (n : TagName) (v : TagValue) :
    Reads readTagHead (writeU8 (valueType v) ++ writeTagName n) (valueType v, n.readBack) := by
  refine (reads_u8 _).bind ?_
  rw [if_neg (not_not.mpr (valueType_high_bit v))]
  cases n with
  | id id =>
    refine (reads_u16 1).bind ?_
    rw [if_pos rfl]
    exact (reads_u8 id).bind_pure
  | str b =>
    by_cases hone : ∃ x, b = [x]
    · -- its length prefix is the one of a numeric id
      obtain ⟨x, rfl⟩ := hone
      have hx : writeTagName (.str [x]) = writeU16 1 ++ writeU8 x := by
        simp [writeTagName, writeStringU16, writeU8, toLE]
      rw [hx]
      refine (reads_u16 1).bind ?_
      rw [if_pos rfl]
      exact (reads_u8 x).bind_pure
    · have hback : (TagName.str b).readBack = .str (b.take 65535) := by
        rcases b with _ | ⟨x, _ | ⟨y, b⟩⟩
        · rfl
        · exact absurd ⟨x, rfl⟩ hone
        · rfl
      have hne : min b.length 65535 ≠ 1 := by
        intro h
        exact hone (List.length_eq_one_iff.mp (by omega))
      have hlen : (UInt16.ofNat (min b.length 65535)).toNat = min b.length 65535 :=
        UInt16.toNat_ofNat_of_lt' (by simp only [UInt16.size]; omega)
      have hlen1 : UInt16.ofNat (min b.length 65535) ≠ 1 := by
        intro h1
        rw [h1] at hlen
        exact hne hlen.symm
      simp only [writeTagName, writeStringU16, take_min_length, hback]
      refine (reads_u16 _).bind ?_
      rw [if_neg hlen1]
      refine (reads_bytes (b.take 65535) ?_).bind_pure
      rw [hlen, List.length_take, Nat.min_comm]

/-- The reader takes exactly the bytes of a tag, whatever the tag. -/
theorem reads_tag_any (t : Tag) : Reads readTag (writeTag t) t.readBack :=
  (reads_tagHead_any t.name t.value).bind (reads_value_any t.value).bind_pure

theorem reads_tag_capped {t : Tag} (h : t.capped.Writable) :
    Reads readTag (writeTag t) t.capped := by
  have hback : t.readBack = t.capped := by
    have hname : t.name.readBack = t.name := TagName.readBack_of_writable h.name
    rw [Tag.readBack, hname, TagValue.readBack_of_capped h.value]
    rfl
  have hreads := reads_tag_any t
  rwa [hback] at hreads

theorem reads_tag {t : Tag} (h : t.Writable) : Reads readTag (writeTag t) t := by
  have hreads := reads_tag_any t
  rwa [Tag.readBack_of_writable h] at hreads

/-- Tags within their prefixes come back from the concatenation of their bytes, all of it
    consumed; and whatever a tag is, its reader stops where its bytes end, so that the tag
    behind it is read intact. -/
theorem tag_stream_round_trip :
    (∀ ts : List Tag, (∀ t ∈ ts, t.Writable) →
      readMany readTag ts.length (ts.flatMap writeTag) = .ok (ts, [])) ∧
    (∀ (t : Tag) (rest : Bytes), readTag (writeTag t ++ rest) = .ok (t.readBack, rest)) ∧
    ∀ (ts : List Tag) (t : Tag) (rest : Bytes), t.Writable →
      (do let _ ← readMany readTag ts.length; readTag : Reader Tag)
        (ts.flatMap writeTag ++ writeTag t ++ rest) = .ok (t, rest) := by
  refine ⟨fun ts h => ?_, fun t rest => reads_tag_any t rest, fun ts t rest h => ?_⟩
  · exact (Reads.many fun t ht => reads_tag (h t ht)).run_nil
  · have hts : Reads (readMany readTag ts.length) (ts.flatMap writeTag) (ts.map Tag.readBack) :=
      Reads.many_map fun t _ => reads_tag_any t
    exact hts.bind (reads_tag h) rest

/-- A BOOLARRAY of too few bytes and a one-byte name in front of a file size. -/
theorem tag_stream_round_trip_mismatched :
    readMany readTag 1 (writeTag ⟨.id 2, .u32 5⟩) = .ok ([⟨.id 2, .u32 5⟩], []) ∧
      (do let _ ← readMany readTag 2; readTag : Reader Tag)
        (writeTag ⟨.str [7], .boolArray 9 [1]⟩ ++ (writeTag ⟨.id 1, .bsob []⟩ ++ []) ++
          writeTag ⟨.id 2, .u32 5⟩ ++ []) = .ok (⟨.id 2, .u32 5⟩, []) :=
  ⟨tag_stream_round_trip.1 [⟨.id 2, .u32 5⟩] (by decide),
    tag_stream_round_trip.2.2 [⟨.str [7], .boolArray 9 [1]⟩, ⟨.id 1, .bsob []⟩] ⟨.id 2, .u32 5⟩ []
      (by decide)⟩

/-! ## Whatever reads can be written -/

theorem writable_of_readTagHead {s s' : Bytes} {type : UInt8} {n : TagName}
    (h : readTagHead s = .ok ((type, n), s')) : n.Writable := by
  obtain ⟨rawType, s₁, -, h⟩ := ok_bind h
  split at h
  · obtain ⟨id, s₂, -, h⟩ := ok_bind h
    cases h
    trivial
  · obtain ⟨namelen, s₂, -, h⟩ := ok_bind h
    split at h
    · obtain ⟨id, s₃, -, h⟩ := ok_bind h
      cases h
      trivial
    · obtain ⟨b, s₃, hb, h⟩ := ok_bind h
      cases h
      have hlt : namelen.toNat < 2 ^ 16 := namelen.toNat_lt
      have hne : namelen.toNat ≠ 1 := fun hone => ‹¬ namelen = 1› (UInt16.toNat_inj.mp hone)
      have hlen := length_of_readBytes hb
      exact ⟨by omega, by omega⟩

/-- A value of fixed width. -/
theorem writable_of_plain {α : Type} {m : Reader α} {f : α → TagValue}
    {s s' : Bytes} {v : TagValue} (h : (do return f (← m) : Reader TagValue) s = .ok (v, s'))
    (hf : ∀ a, (f a).Writable) : v.Writable := by
  obtain ⟨a, t, -, h⟩ := ok_bind h
  cases h
  exact hf a

theorem writable_of_readValue {type : UInt8} {s s' : Bytes} {v : TagValue}
    (h : readValue type s = .ok (v, s')) : v.Writable := by
  unfold readValue at h
  obtain h | h := ok_ite h
  · exact writable_of_plain h fun _ => trivial
  obtain h | h := ok_ite h
  · obtain ⟨b, t, hb, h⟩ := ok_bind h
    cases h
    exact length_of_readStringU16 hb
  obtain h | h := ok_ite h
  · exact writable_of_plain h fun _ => trivial
  obtain h | h := ok_ite h
  · exact writable_of_plain h fun _ => trivial
  obtain h | h := ok_ite h
  · exact writable_of_plain h fun _ => trivial
  obtain h | h := ok_ite h
  · obtain ⟨bitLen, t, -, h⟩ := ok_bind h
    obtain ⟨data, t', hdata, h⟩ := ok_bind h
    cases h
    exact length_of_readBytes hdata
  obtain h | h := ok_ite h
  · obtain ⟨len, t, -, h⟩ := ok_bind h
    obtain ⟨b, t', hb, h⟩ := ok_bind h
    cases h
    exact (length_of_readBytes hb).trans_lt len.toNat_lt
  obtain h | h := ok_ite h
  · exact writable_of_plain h fun _ => trivial
  obtain h | h := ok_ite h
  · exact writable_of_plain h fun _ => trivial
  obtain h | h := ok_ite h
  · obtain ⟨len, t, -, h⟩ := ok_bind h
    obtain ⟨b, t', hb, h⟩ := ok_bind h
    cases h
    exact (length_of_readBytes hb).trans_le (Nat.le_of_lt_succ len.toNat_lt)
  obtain h | h := ok_ite h
  · exact writable_of_plain h fun _ => trivial
  obtain h | h := ok_ite h
  · obtain ⟨b, t, hb, h⟩ := ok_bind h
    cases h
    have hlt : (type - TAGTYPE_STR1 + 1).toNat < 2 ^ 8 := UInt8.toNat_lt _
    show b.length ≤ 65535
    rw [length_of_readBytes hb]
    omega
  · cases h

theorem writable_of_readTag {s s' : Bytes} {t : Tag} (h : readTag s = .ok (t, s')) :
    t.Writable := by
  obtain ⟨head, s₁, hhead, h⟩ := ok_bind h
  obtain ⟨value, s₂, hvalue, h⟩ := ok_bind h
  cases h
  exact ⟨writable_of_readTagHead hhead, writable_of_readValue hvalue⟩

end PadMule.Proto
