import PadMule.Engine.PeerSources
import PadMule.Engine.Transport

/-
  `mule-engine/src/sources.rs`: the answers of the source exchange between peers.

  The record has four versions, of three sizes, and from v3 on the id is byte-swapped. An SX2 answer
  names its version; of an SX1 answer it is told from the size and the version that the sender has
  announced. What is built reads back as the sources it was built from, as far as the version tells
  them (`parse_build`), and what is accepted is records of the version it was read as and nothing
  else (`accepted_whole`). Records of v2 and v3 are accepted under every announced version from v4
  on, too, and are read as v3 (`answer_sources_codec`).
-/

namespace PadMule.Engine.SourceExchange

open PadMule.Proto Readers

def OP_ANSWERSOURCES : UInt8 := 0x82
def OP_ANSWERSOURCES2 : UInt8 := 0x84

/-- Upstream breaks after writing. -/
def MAX_SOURCES_PER_ANSWER : Nat := 501

/-- Upstream tries to zlib-pack an answer once it exceeds this. -/
def SX_PACK_THRESHOLD : Nat := 354

/-- Size of a record. -/
def sxRecordLen (version : UInt8) : Option Nat :=
  if version = 1 then some (4 + 2 + 4 + 2)
  else if version = 2 ∨ version = 3 then some (4 + 2 + 4 + 2 + 16)
  else if version = 4 then some (4 + 2 + 4 + 2 + 16 + 1)
  else none

/-- From v3 on the id travels byte-swapped. -/
def sxIdToWire (ip : UInt32) (version : UInt8) : UInt32 := if 3 ≤ version then swapBytes ip else ip

/-! ## Building -/

def writeSource (version : UInt8) (s : SxSource) : Bytes :=
  writeU32 (sxIdToWire s.ip version) ++ (writeU16 s.port ++ (writeU32 s.serverIp ++
    (writeU16 s.serverPort ++
      ((if 2 ≤ version then (s.userHash.getD (Digest.fill 16 0)).bytes else []) ++
        if 4 ≤ version then writeU8 (s.crypt.getD 0) else []))))

/-- The version is only written over SX2. -/
def writeHeader (sx2 : Bool) (version : UInt8) (hash : Hash16) (count : UInt16) : Bytes :=
  (if sx2 then writeU8 version else []) ++ (hash.bytes ++ writeU16 count)

def packIfLarge (deflate : Bytes → Bytes) (p : Packet) : Packet :=
  if SX_PACK_THRESHOLD < p.payload.length then compress deflate p else p

def answerPayload (hash : Hash16) (sources : List SxSource) (version : UInt8) (sx2 : Bool) :
    Bytes :=
  let sources := sources.take MAX_SOURCES_PER_ANSWER
  writeHeader sx2 version hash (.ofNat sources.length) ++ sources.flatMap (writeSource version)

def buildAnswerSources (deflate : Bytes → Bytes) (hash : Hash16) (sources : List SxSource)
    (version : UInt8) (sx2 : Bool) : Option Packet := do
  let _len ← sxRecordLen version
  let op := if sx2 then OP_ANSWERSOURCES2 else OP_ANSWERSOURCES
  return packIfLarge deflate ⟨PROT_EMULE, op, answerPayload hash sources version sx2⟩

/-! ## Parsing -/

def readVersion (sx2 : Bool) : Reader UInt8 := if sx2 then readU8 else pure 0

def readHeader (sx2 : Bool) : Reader (UInt8 × Hash16 × UInt16) := do
  let version ← readVersion sx2
  let hash ← readDigest 16
  let count ← readU16
  return (version, hash, count)

def readUserHash (version : UInt8) : Reader (Option Hash16) :=
  if 2 ≤ version then do return some (← readDigest 16) else pure none

def readCrypt (version : UInt8) : Reader (Option UInt8) :=
  if 4 ≤ version then do return some (← readU8) else pure none

def readSource (version : UInt8) : Reader SxSource := do
  let ip ← readU32
  let port ← readU16
  let serverIp ← readU32
  let serverPort ← readU16
  let userHash ← readUserHash version
  let crypt ← readCrypt version
  return ⟨sxIdFromWire ip version, port, serverIp, serverPort, userHash, crypt⟩

/-- `count` records of the version are the whole body. -/
def Fits (count body : Nat) (version : UInt8) : Prop :=
  (sxRecordLen version).map (count * ·) = some body

instance (count body : Nat) (version : UInt8) : Decidable (Fits count body version) :=
  inferInstanceAs (Decidable (_ = _))

def resolveSx1Version (count body : Nat) (announced : UInt8) : Except IoError UInt8 :=
  if Fits count body 1 ∧ announced = 1 then .ok 1
  else if Fits count body 2 ∧ announced = 2 then .ok 2
  else if Fits count body 3 ∧ 2 < announced then .ok 3
  else if Fits count body 4 ∧ announced = 4 then .ok 4
  else .error .unexpectedEof

/-- The version that an SX2 answer names, if its length is right. -/
def checkSx2Version (count body : Nat) (version : UInt8) : Except IoError UInt8 :=
  match sxRecordLen version with
  | none => .error (.badTag version)
  | some len => if count * len ≠ body then .error .unexpectedEof else .ok version

def answerVersion (sx2 : Bool) (count body : Nat) (version announced : UInt8) :
    Except IoError UInt8 :=
  if sx2 then checkSx2Version count body version else resolveSx1Version count body announced

def parseAnswerSources (payload : Bytes) (sx2 : Bool) (announced : UInt8) :
    Except IoError (Hash16 × List SxSource) := do
  let ((version, hash, count), body) ← readHeader sx2 payload
  let version ← answerVersion sx2 count.toNat body.length version announced
  if MAX_SOURCES_PER_ANSWER < count.toNat then .error .tooBig
  else
    let (out, _) ← readMany (readSource version) count.toNat body
    return (hash, out)

/-! ## Records -/

/-- What a version tells of a source. -/
def told (version : UInt8) (s : SxSource) : SxSource :=
  { s with
    userHash := if 2 ≤ version then some (s.userHash.getD (Digest.fill 16 0)) else none
    crypt := if 4 ≤ version then some (s.crypt.getD 0) else none }

theorem sxIdFromWire_toWire (ip : UInt32) (version : UInt8) :
    sxIdFromWire (sxIdToWire ip version) version = ip := by
  unfold sxIdFromWire sxIdToWire
  split_ifs
  · exact swapBytes_swapBytes ip
  · rfl

theorem reads_userHash (version : UInt8) (h : Hash16) :
    Reads (readUserHash version) (if 2 ≤ version then h.bytes else [])
      (if 2 ≤ version then some h else none) := by
  unfold readUserHash
  split_ifs
  · exact (reads_digest h).bind_pure
  · exact .pure none

theorem reads_crypt (version : UInt8) (c : UInt8) :
    Reads (readCrypt version) (if 4 ≤ version then writeU8 c else [])
      (if 4 ≤ version then some c else none) := by
  unfold readCrypt
  split_ifs
  · exact (reads_u8 c).bind_pure
  · exact .pure none

theorem reads_source (version : UInt8) (s : SxSource) :
    Reads (readSource version) (writeSource version s) (told version s) := by
  have hread : Reads (readSource version) (writeSource version s)
      ⟨sxIdFromWire (sxIdToWire s.ip version) version, s.port, s.serverIp, s.serverPort,
        if 2 ≤ version then some (s.userHash.getD (Digest.fill 16 0)) else none,
        if 4 ≤ version then some (s.crypt.getD 0) else none⟩ :=
    (reads_u32 _).bind <| (reads_u16 _).bind <| (reads_u32 _).bind <| (reads_u16 _).bind <|
      (reads_userHash version _).bind (reads_crypt version _).bind_pure
  rwa [sxIdFromWire_toWire] at hread

theorem reads_header (sx2 : Bool) (version : UInt8) (hash : Hash16) (count : UInt16) :
    Reads (readHeader sx2) (writeHeader sx2 version hash count)
      (if sx2 then version else 0, hash, count) := by
  have hversion : Reads (readVersion sx2) (if sx2 then writeU8 version else [])
      (if sx2 then version else 0) := by
    unfold readVersion
    split_ifs
    · exact reads_u8 version
    · exact .pure 0
  exact hversion.bind <| (reads_digest hash).bind (reads_u16 count).bind_pure

/-- The versions that there are, with the size of their records. -/
theorem sxRecordLen_eq_some {version : UInt8} {len : Nat} (h : sxRecordLen version = some len) :
    (version = 1 ∧ len = 12) ∨ (version = 2 ∧ len = 28) ∨ (version = 3 ∧ len = 28) ∨
      (version = 4 ∧ len = 29) := by
  unfold sxRecordLen at h
  split_ifs at h with h₁ h₂ h₄
  · exact .inl ⟨h₁, (Option.some.inj h).symm⟩
  · rcases h₂ with h₂ | h₃
    · exact .inr (.inl ⟨h₂, (Option.some.inj h).symm⟩)
    · exact .inr (.inr (.inl ⟨h₃, (Option.some.inj h).symm⟩))
  · exact .inr (.inr (.inr ⟨h₄, (Option.some.inj h).symm⟩))

theorem length_writeSource {version : UInt8} {len : Nat} (h : sxRecordLen version = some len)
    (s : SxSource) : (writeSource version s).length = len := by
  have hhash (d : Hash16) : d.bytes.length = 16 := d.len
  rcases sxRecordLen_eq_some h with ⟨rfl, rfl⟩ | ⟨rfl, rfl⟩ | ⟨rfl, rfl⟩ | ⟨rfl, rfl⟩
  all_goals
    simp only [writeSource, List.length_append, writeU32, writeU16, writeU8,
      LittleEndian.length_toLE]
  · rfl
  · rw [if_pos (by decide), hhash]
    rfl
  · rw [if_pos (by decide), hhash]
    rfl
  · rw [if_pos (by decide), hhash]
    rfl

theorem takes_source {version : UInt8} {len : Nat} (h : sxRecordLen version = some len) :
    Readers.Takes (readSource version) len := by
  have hall (k m : Nat) (hhash : Readers.Takes (readUserHash version) k)
      (hcrypt : Readers.Takes (readCrypt version) m) :
      Readers.Takes (readSource version) (4 + (2 + (4 + (2 + (k + m))))) :=
    takes_u32.bind fun _ => takes_u16.bind fun _ => takes_u32.bind fun _ => takes_u16.bind fun _ =>
      hhash.bind fun _ => hcrypt.bind_pure
  have hone : Readers.Takes (do return some (← readDigest 16) : Reader (Option Hash16)) 16 :=
    (takes_digest 16).bind_pure
  rcases sxRecordLen_eq_some h with ⟨rfl, rfl⟩ | ⟨rfl, rfl⟩ | ⟨rfl, rfl⟩ | ⟨rfl, rfl⟩
  · exact hall 0 0 (.pure none) (.pure none)
  · exact hall 16 0 hone (.pure none)
  · exact hall 16 0 hone (.pure none)
  · exact hall 16 1 hone takes_u8.bind_pure

/-! ## What is accepted -/

/-- A version that is settled on has a record size, and the body is that many records of it. -/
theorem fits_of_answerVersion {sx2 : Bool} {count body : Nat} {first announced version : UInt8}
    (h : answerVersion sx2 count body first announced = .ok version) :
    Fits count body version := by
  unfold answerVersion at h
  split_ifs at h
  · unfold checkSx2Version at h
    split at h
    · cases h
    · next len hlen =>
      split_ifs at h with hbody
      cases h
      rw [Fits, hlen, Option.map_some, not_not.mp hbody]
  · unfold resolveSx1Version at h
    split_ifs at h with h₁ h₂ h₃ h₄
    · exact Except.ok.inj h ▸ h₁.1
    · exact Except.ok.inj h ▸ h₂.1
    · exact Except.ok.inj h ▸ h₃.1
    · exact Except.ok.inj h ▸ h₄.1

def headerLen (sx2 : Bool) : Nat := if sx2 then 1 + 16 + 2 else 16 + 2

theorem takes_header (sx2 : Bool) : Readers.Takes (readHeader sx2) (headerLen sx2) := by
  have hrest (k : Nat) (h : Readers.Takes (readVersion sx2) k) :
      Readers.Takes (readHeader sx2) (k + (16 + 2)) :=
    h.bind fun _ => (takes_digest 16).bind fun _ => takes_u16.bind_pure
  cases sx2 with
  | false => exact hrest 0 (.pure 0)
  | true => exact hrest 1 takes_u8

/-- The payload is a header and records of this version, all of them and nothing else. -/
def ReadAs (version : UInt8) (sx2 : Bool) (payload : Bytes) (hash : Hash16)
    (out : List SxSource) : Prop :=
  ∃ first count body, readHeader sx2 payload = .ok ((first, hash, count), body) ∧
    count.toNat = out.length ∧ readMany (readSource version) out.length body = .ok (out, [])

/-- What is accepted is as long as the header and the records of the version it was read as. -/
theorem accepted_whole {payload : Bytes} {sx2 : Bool} {announced : UInt8} {hash : Hash16}
    {out : List SxSource} (h : parseAnswerSources payload sx2 announced = .ok (hash, out)) :
    ∃ version len, sxRecordLen version = some len ∧ ReadAs version sx2 payload hash out ∧
      payload.length = headerLen sx2 + out.length * len := by
  rw [parseAnswerSources] at h
  cases hheader : readHeader sx2 payload with
  | error e =>
    rw [hheader] at h
    cases h
  | ok read =>
    obtain ⟨⟨first, hash', count⟩, body⟩ := read
    rw [hheader] at h
    cases hversion : answerVersion sx2 count.toNat body.length first announced with
    | error e =>
      simp only [bind, Except.bind, hversion] at h
      cases h
    | ok version =>
      simp only [bind, Except.bind, hversion] at h
      split_ifs at h
      cases hrecords : readMany (readSource version) count.toNat body with
      | error e =>
        rw [hrecords] at h
        cases h
      | ok records =>
        obtain ⟨out', left⟩ := records
        rw [hrecords] at h
        cases h
        have hcount := length_of_readMany hrecords
        obtain ⟨len, hlen, hbody⟩ := Option.map_eq_some_iff.mp (fits_of_answerVersion hversion)
        have htaken := (takes_source hlen).many count.toNat body _ left hrecords
        have hleft : left = [] := List.eq_nil_of_length_eq_zero (by omega)
        have hhead := takes_header sx2 payload _ body hheader
        refine ⟨version, len, hlen, ⟨first, count, body, hheader, hcount.symm, ?_⟩, ?_⟩
        · rw [hcount, hrecords, hleft]
        · rw [hhead, ← hbody, hcount]

/-! ## What was built -/

section

variable {version announced : UInt8} {len : Nat} {sx2 : Bool} {sources : List SxSource}

theorem length_records (h : sxRecordLen version = some len) (sources : List SxSource) :
    (sources.flatMap (writeSource version)).length = sources.length * len := by
  induction sources with
  | nil => exact (Nat.zero_mul len).symm
  | cons s sources ih =>
    rw [List.flatMap_cons, List.length_append, ih, length_writeSource h, List.length_cons,
      Nat.succ_mul, Nat.add_comm]

theorem count_toNat (sources : List SxSource) :
    (UInt16.ofNat (sources.take MAX_SOURCES_PER_ANSWER).length).toNat =
      (sources.take MAX_SOURCES_PER_ANSWER).length := by
  refine UInt16.toNat_ofNat_of_lt' ?_
  rw [List.length_take]
  unfold MAX_SOURCES_PER_ANSWER UInt16.size
  omega

/-- The parser of an answer, past the header and the version. -/
theorem parse_payload (hlen : sxRecordLen version = some len) (hash : Hash16)
    (sources : List SxSource) (sx2 : Bool) (announced : UInt8) {read : UInt8}
    (hread : answerVersion sx2 (sources.take MAX_SOURCES_PER_ANSWER).length
      ((sources.take MAX_SOURCES_PER_ANSWER).length * len) (if sx2 then version else 0)
      announced = .ok read) {out : List SxSource}
    (hout : Reads (readMany (readSource read) (sources.take MAX_SOURCES_PER_ANSWER).length)
      ((sources.take MAX_SOURCES_PER_ANSWER).flatMap (writeSource version)) out) :
    parseAnswerSources (answerPayload hash sources version sx2) sx2 announced =
      .ok (hash, out) := by
  have hsmall : (sources.take MAX_SOURCES_PER_ANSWER).length ≤ MAX_SOURCES_PER_ANSWER :=
    List.length_take_le ..
  have hcount := count_toNat sources
  have hbody := length_records hlen (sources.take MAX_SOURCES_PER_ANSWER)
  unfold answerPayload
  generalize sources.take MAX_SOURCES_PER_ANSWER = taken at *
  have hheader := reads_header sx2 version hash (.ofNat taken.length)
    (taken.flatMap (writeSource version))
  simp only [parseAnswerSources, hheader, bind, Except.bind, hcount, hbody, hread,
    if_neg (Nat.not_lt.mpr hsmall), hout.run_nil]
  rfl

theorem parse_error {e : IoError} (hlen : sxRecordLen version = some len) (hash : Hash16)
    (sources : List SxSource) (sx2 : Bool) (announced : UInt8)
    (hread : answerVersion sx2 (sources.take MAX_SOURCES_PER_ANSWER).length
      ((sources.take MAX_SOURCES_PER_ANSWER).length * len) (if sx2 then version else 0)
      announced = .error e) :
    parseAnswerSources (answerPayload hash sources version sx2) sx2 announced = .error e := by
  have hcount := count_toNat sources
  have hbody := length_records hlen (sources.take MAX_SOURCES_PER_ANSWER)
  unfold answerPayload
  generalize sources.take MAX_SOURCES_PER_ANSWER = taken at *
  have hheader := reads_header sx2 version hash (.ofNat taken.length)
    (taken.flatMap (writeSource version))
  simp only [parseAnswerSources, hheader, bind, Except.bind, hcount, hbody, hread]

/-- The size tells the sizes of the records apart as soon as there is one. -/
theorem fits_iff {n : Nat} (hpos : 0 < n) (len : Nat) (version : UInt8) :
    Fits n (n * len) version ↔ sxRecordLen version = some len := by
  rw [Fits]
  cases sxRecordLen version with
  | none => exact ⟨nofun, nofun⟩
  | some l => simp [Nat.mul_right_inj hpos.ne']

/-- What an SX1 answer is read as, by the size of its records. -/
theorem resolve_of_pos {n : Nat} (hpos : 0 < n) (announced : UInt8) :
    (resolveSx1Version n (n * 12) announced =
      if announced = 1 then .ok 1 else .error .unexpectedEof) ∧
    (resolveSx1Version n (n * 28) announced =
      if announced = 2 then .ok 2 else if 2 < announced then .ok 3 else .error .unexpectedEof) ∧
    resolveSx1Version n (n * 29) announced =
      if announced = 4 then .ok 4 else .error .unexpectedEof := by
  have hone : sxRecordLen 1 = some 12 := rfl
  have htwo : sxRecordLen 2 = some 28 := rfl
  have hthree : sxRecordLen 3 = some 28 := rfl
  have hfour : sxRecordLen 4 = some 29 := rfl
  refine ⟨?_, ?_, ?_⟩
  all_goals simp [resolveSx1Version, fits_iff hpos, hone, htwo, hthree, hfour]

/-- A version is settled on if it is named or announced. -/
theorem answerVersion_self {n : Nat} (hlen : sxRecordLen version = some len)
    (h : sx2 = true ∨ 0 < n ∧ announced = version) :
    answerVersion sx2 n (n * len) (if sx2 then version else 0) announced = .ok version := by
  cases sx2 with
  | true => simp [answerVersion, checkSx2Version, hlen]
  | false =>
    obtain ⟨hpos, rfl⟩ := h.resolve_left Bool.false_ne_true
    obtain ⟨hv1, hv23, hv4⟩ := resolve_of_pos hpos announced
    show resolveSx1Version n (n * len) announced = _
    rcases sxRecordLen_eq_some hlen with ⟨rfl, rfl⟩ | ⟨rfl, rfl⟩ | ⟨rfl, rfl⟩ | ⟨rfl, rfl⟩
    · rw [hv1, if_pos rfl]
    · rw [hv23, if_pos rfl]
    · rw [hv23, if_neg (by decide), if_pos (by decide)]
    · rw [hv4, if_pos rfl]

theorem length_taken_pos (h : sources ≠ []) :
    0 < (sources.take MAX_SOURCES_PER_ANSWER).length := by
  have hlen := List.length_pos_iff.mpr h
  rw [List.length_take]
  unfold MAX_SOURCES_PER_ANSWER
  omega

/-- What is built reads back as the sources that fit in it. Where there are none an SX1 answer of
    v4 is settled on as one of v3, which says the same. -/
theorem parse_build (hlen : sxRecordLen version = some len) (hash : Hash16)
    (sources : List SxSource) (h : sx2 = true ∨ announced = version) :
    parseAnswerSources (answerPayload hash sources version sx2) sx2 announced =
      .ok (hash, (sources.take MAX_SOURCES_PER_ANSWER).map (told version)) := by
  have hout : Reads
      (readMany (readSource version) (sources.take MAX_SOURCES_PER_ANSWER).length)
      ((sources.take MAX_SOURCES_PER_ANSWER).flatMap (writeSource version))
      ((sources.take MAX_SOURCES_PER_ANSWER).map (told version)) :=
    Reads.many_map fun s _ => reads_source version s
  by_cases hnone : sources = []
  · subst hnone
    rcases sxRecordLen_eq_some hlen with ⟨rfl, rfl⟩ | ⟨rfl, rfl⟩ | ⟨rfl, rfl⟩ | ⟨rfl, rfl⟩
    all_goals
      rcases h with rfl | rfl
      · exact parse_payload hlen hash [] true announced rfl hout
    · exact parse_payload hlen hash [] sx2 1 (by cases sx2 <;> rfl) hout
    · exact parse_payload hlen hash [] sx2 2 (by cases sx2 <;> rfl) hout
    · exact parse_payload hlen hash [] sx2 3 (by cases sx2 <;> rfl) hout
    · cases sx2 with
      | false =>
        have hthree : answerVersion false 0 0 0 4 = .ok 3 := rfl
        exact parse_payload hlen hash [] false 4 hthree (.pure [])
      | true => exact parse_payload hlen hash [] true 4 rfl hout
  · have hpos := length_taken_pos hnone
    exact parse_payload hlen hash sources sx2 announced
      (answerVersion_self hlen (h.imp_right fun heq => ⟨hpos, heq⟩)) hout

/-! ## Announced versions -/

/-- A source with its address back to front. -/
def flipped (s : SxSource) : SxSource := { s with ip := swapBytes s.ip }

/-- A record of v2 is the record of v3 of the flipped address. -/
theorem writeSource_flipped (s : SxSource) : writeSource 2 s = writeSource 3 (flipped s) := by
  have hip : sxIdToWire (flipped s).ip 3 = s.ip := swapBytes_swapBytes s.ip
  have hip' : sxIdToWire s.ip 2 = s.ip := rfl
  rw [writeSource, writeSource, hip, hip']
  rfl

/-- Records of v2 or v3 under an announced version from v4 on: they are read as v3. -/
theorem parse_as_v3 (hversion : version = 2 ∨ version = 3) (hannounced : 4 ≤ announced)
    (hash : Hash16) (hsome : sources ≠ []) :
    parseAnswerSources (answerPayload hash sources version false) false announced =
      .ok (hash, (sources.take MAX_SOURCES_PER_ANSWER).map fun s =>
        told 3 (if version = 2 then flipped s else s)) := by
  have htwo : announced ≠ 2 := by
    rintro rfl
    exact absurd hannounced (by decide)
  have hgt : 2 < announced := by
    have hfour : 4 ≤ announced.toNat := UInt8.le_iff_toNat_le.mp hannounced
    exact UInt8.lt_iff_toNat_lt.mpr (show 2 < announced.toNat by omega)
  have hread := (resolve_of_pos (length_taken_pos hsome) announced).2.1
  rw [if_neg htwo, if_pos hgt] at hread
  rcases hversion with rfl | rfl
  · have hlen : sxRecordLen 2 = some 28 := rfl
    refine parse_payload hlen hash sources false announced hread
      (Reads.many_map fun s _ => ?_)
    rw [writeSource_flipped]
    exact reads_source 3 (flipped s)
  · have hlen : sxRecordLen 3 = some 28 := rfl
    exact parse_payload hlen hash sources false announced hread
      (Reads.many_map fun s _ => reads_source 3 s)

/-- Any other version that is announced wrong is refused. -/
theorem parse_refused (hlen : sxRecordLen version = some len) (hash : Hash16) (hsome : sources ≠ [])
    (hne : sxRecordLen announced ≠ sxRecordLen version)
    (hnot : ¬((version = 2 ∨ version = 3) ∧ 4 ≤ announced)) :
    parseAnswerSources (answerPayload hash sources version false) false announced =
      .error .unexpectedEof := by
  obtain ⟨hv1, hv23, hv4⟩ := resolve_of_pos (length_taken_pos hsome) announced
  refine parse_error hlen hash sources false announced ?_
  show resolveSx1Version _ _ announced = _
  have hother {v : UInt8} (h : sxRecordLen v = sxRecordLen version) : announced ≠ v :=
    fun heq => hne (heq ▸ h)
  have hlow (hv : version = 2 ∨ version = 3) (h₂ : announced ≠ 2) (h₃ : announced ≠ 3) :
      ¬2 < announced := by
    intro hgt
    refine hnot ⟨hv, ?_⟩
    have hgt' := UInt8.lt_iff_toNat_lt.mp hgt
    have h₃' : announced.toNat ≠ 3 := fun heq => h₃ (UInt8.toNat.inj heq)
    refine UInt8.le_iff_toNat_le.mpr ?_
    show 4 ≤ announced.toNat
    have htwo : (2 : UInt8).toNat = 2 := rfl
    omega
  rcases sxRecordLen_eq_some hlen with ⟨rfl, rfl⟩ | ⟨rfl, rfl⟩ | ⟨rfl, rfl⟩ | ⟨rfl, rfl⟩
  · rw [hv1, if_neg (hother rfl)]
  · have htwo : announced ≠ 2 := hother rfl
    rw [hv23, if_neg htwo, if_neg (hlow (.inl rfl) htwo (hother rfl))]
  · have htwo : announced ≠ 2 := hother rfl
    rw [hv23, if_neg htwo, if_neg (hlow (.inr rfl) htwo (hother rfl))]
  · rw [hv4, if_neg (hother rfl)]

/-- The payload that the parser gets, when the packet was built and unpacked again. -/
def delivered (deflate : Bytes → Bytes) (inflate : Bytes → Nat → Option Bytes) (hash : Hash16)
    (sources : List SxSource) (version : UInt8) (sx2 : Bool) : Option Bytes := do
  let p ← buildAnswerSources deflate hash sources version sx2
  match unpacked inflate (.packet p) with
  | .packet q => some q.payload
  | _ => none

theorem length_answerPayload (hlen : sxRecordLen version = some len) (hash : Hash16)
    (sources : List SxSource) (sx2 : Bool) :
    (answerPayload hash sources version sx2).length ≤ MAX_PACKET_SIZE := by
  have hbody := length_records hlen (sources.take MAX_SOURCES_PER_ANSWER)
  have hcount : (sources.take MAX_SOURCES_PER_ANSWER).length ≤ 501 := List.length_take_le ..
  have hhead : (writeHeader sx2 version hash
      (.ofNat (sources.take MAX_SOURCES_PER_ANSWER).length)).length ≤ 19 := by
    have hhash : hash.bytes.length = 16 := hash.len
    cases sx2 <;> simp [writeHeader, writeU8, writeU16, hhash]
  have hsize : len ≤ 29 := by
    rcases sxRecordLen_eq_some hlen with ⟨-, rfl⟩ | ⟨-, rfl⟩ | ⟨-, rfl⟩ | ⟨-, rfl⟩ <;> decide
  have hmul := Nat.mul_le_mul hcount hsize
  rw [answerPayload, List.length_append, hbody]
  unfold MAX_PACKET_SIZE
  omega

theorem delivered_eq {deflate : Bytes → Bytes} {inflate : Bytes → Nat → Option Bytes}
    (hzlib : ZlibRoundTrips deflate inflate) (hlen : sxRecordLen version = some len)
    (hash : Hash16) (sources : List SxSource) (sx2 : Bool) :
    delivered deflate inflate hash sources version sx2 =
      some (answerPayload hash sources version sx2) := by
  have hframed (op : UInt8) :
      Packet.Framed ⟨PROT_EMULE, op, answerPayload hash sources version sx2⟩ :=
    ⟨rfl, length_answerPayload hlen hash sources sx2⟩
  have hunpacked (op : UInt8) : ∃ q, unpacked inflate (.packet (packIfLarge deflate
      ⟨PROT_EMULE, op, answerPayload hash sources version sx2⟩)) = .packet q ∧
        q.payload = answerPayload hash sources version sx2 := by
    rw [packIfLarge]
    split_ifs with hlarge
    · obtain ⟨q, hq, -, hpayload⟩ := asRead_compress inflate hzlib (hframed op)
        (show PROT_EMULE ∉ [PROT_PACKED, PROT_KAD, PROT_ED2KV2] by decide)
      exact ⟨q, hq, hpayload⟩
    · exact ⟨_, rfl, rfl⟩
  obtain ⟨q, hq, hpayload⟩ := hunpacked (if sx2 then OP_ANSWERSOURCES2 else OP_ANSWERSOURCES)
  rw [delivered, buildAnswerSources, hlen]
  simp only [Option.bind_eq_bind, Option.bind_some, pure, hq, hpayload]

/-- Whatever the version, the layout and the sources, what is built reads back, cut to the limit,
    as far as the version tells it, and what is accepted is as long as it says. A version of
    another record size that is announced is refused exactly if the records are not of v2 or v3
    with a version from v4 on announced. -/
theorem answer_sources_codec {deflate : Bytes → Bytes} {inflate : Bytes → Nat → Option Bytes}
    (hzlib : ZlibRoundTrips deflate inflate) (hversion : version ∈ [1, 2, 3, 4])
    (announced : UInt8) (hash : Hash16) (sources : List SxSource) :
    (∀ sx2, sx2 = true ∨ announced = version → ∃ payload,
      delivered deflate inflate hash sources version sx2 = some payload ∧
        parseAnswerSources payload sx2 announced =
          .ok (hash, (sources.take MAX_SOURCES_PER_ANSWER).map (told version))) ∧
    (∀ payload sx2 hash out, parseAnswerSources payload sx2 announced = .ok (hash, out) →
      ∃ version len, sxRecordLen version = some len ∧ ReadAs version sx2 payload hash out ∧
        payload.length = headerLen sx2 + out.length * len) ∧
    ((sources ≠ [] → sxRecordLen announced ≠ sxRecordLen version → ∃ payload e,
        delivered deflate inflate hash sources version false = some payload ∧
          parseAnswerSources payload false announced = .error e) ↔
      (sources = [] ∨ ¬((version = 2 ∨ version = 3) ∧ 4 ≤ announced))) := by
  obtain ⟨len, hlen⟩ : ∃ len, sxRecordLen version = some len := by
    simp only [List.mem_cons, List.not_mem_nil, or_false] at hversion
    rcases hversion with rfl | rfl | rfl | rfl
    · exact ⟨12, rfl⟩
    · exact ⟨28, rfl⟩
    · exact ⟨28, rfl⟩
    · exact ⟨29, rfl⟩
  refine ⟨fun sx2 h =>
      ⟨_, delivered_eq hzlib hlen hash sources sx2, parse_build hlen hash sources h⟩,
    fun payload sx2 hash out h => accepted_whole h, fun h => ?_, fun h hsome hne => ?_⟩
  · by_contra hcon
    obtain ⟨hsome, hboth⟩ := not_or.mp hcon
    obtain ⟨hv, hannounced⟩ := not_not.mp hboth
    have hne : sxRecordLen announced ≠ sxRecordLen version := by
      intro heq
      have hsize : sxRecordLen announced = some 28 := by
        rcases hv with rfl | rfl <;> exact heq
      rcases sxRecordLen_eq_some hsize with ⟨-, h⟩ | ⟨rfl, -⟩ | ⟨rfl, -⟩ | ⟨-, h⟩
      · cases h
      · exact absurd hannounced (by decide)
      · exact absurd hannounced (by decide)
      · cases h
    obtain ⟨payload, e, hdelivered, herror⟩ := h hsome hne
    rw [delivered_eq hzlib hlen hash sources false] at hdelivered
    cases hdelivered
    rw [parse_as_v3 hv hannounced hash hsome] at herror
    cases herror
  · exact ⟨_, _, delivered_eq hzlib hlen hash sources false,
      parse_refused hlen hash hsome hne (h.resolve_left hsome)⟩

end

def sampleSource : SxSource := ⟨0x04030201, 4662, 0x08080808, 4661, none, some 1⟩

/-- A source over SX1 in v2, announced so. -/
theorem answer_sources_codec_v2 : ∃ payload,
    delivered sampleDeflate sampleInflate (Digest.fill 16 1) [sampleSource] 2 false =
      some payload ∧
    parseAnswerSources payload false 2 = .ok (Digest.fill 16 1, [told 2 sampleSource]) :=
  (answer_sources_codec sample_roundTrips (by decide) 2 (Digest.fill 16 1) [sampleSource]).1 false
    (.inr rfl)

/-- Under v4, whose records are longer, the same payload is accepted, with the address of the source
    back to front. -/
theorem v2_answer_accepted_under_v4 :
    sxRecordLen 4 ≠ sxRecordLen 2 ∧
      parseAnswerSources (answerPayload (Digest.fill 16 1) [sampleSource] 2 false) false 4 =
        .ok (Digest.fill 16 1,
          [⟨0x01020304, 4662, 0x08080808, 4661, some (Digest.fill 16 0), none⟩]) := by
  decide

end PadMule.Engine.SourceExchange
