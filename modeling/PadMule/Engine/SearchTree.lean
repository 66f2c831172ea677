import PadMule.Engine.SearchQuery
import PadMule.Engine.SharedLibrary

/-
  `mule-engine/src/search.rs`: the search expression as it goes to a server.

  A prefix encoding: an operator in front of its two operands, and three kinds of terms with their
  strings behind their lengths. It is read back whole and in one way only (`searchTree_decodes`):
  the keyword tree and the filters that are set, put together by AND from the right. A length is a
  u16 and a longer string is cut to it, so exactly the expressions whose strings fit come back
  (`decode_iff`).
-/

namespace PadMule.Engine.SearchTree

open PadMule.Proto Readers SearchQuery

def ED2K_SEARCH_OP_GREATER : UInt8 := 1
def ED2K_SEARCH_OP_LESS : UInt8 := 2

def FT_FILESIZE : UInt8 := 0x02
def FT_FILETYPE : UInt8 := 0x03
def FT_FILEFORMAT : UInt8 := 0x04
def FT_SOURCES : UInt8 := 0x15

structure SearchParams where
  keyword : List Char
  fileType : Option String
  minSize : Option UInt32
  maxSize : Option UInt32
  minSources : Option UInt32
  extension : Option String
deriving DecidableEq

/-! ## Writing -/

def writeAnd : Bytes := [0x00, 0x00]

def writeOr : Bytes := [0x00, 0x01]

def writeNot : Bytes := [0x00, 0x02]

def writeKeyword (s : Bytes) : Bytes := 0x01 :: writeStringU16 s

def writeStringMeta (tagId : UInt8) (s : Bytes) : Bytes :=
  0x02 :: (writeStringU16 s ++ (writeU16 1 ++ [tagId]))

def writeNumericMeta (tagId op : UInt8) (value : UInt32) : Bytes :=
  0x03 :: (writeU32 value ++ (op :: (writeU16 1 ++ [tagId])))

inductive Term where
  | stringMeta (id : UInt8) (s : Bytes)
  | numericMeta (id op : UInt8) (v : UInt32)
deriving DecidableEq

def writeTerm : Term → Bytes
  | .stringMeta id s => writeStringMeta id s
  | .numericMeta id op v => writeNumericMeta id op v

/-- The bytes of a word. -/
def wordBytes (s : List Char) : Bytes := utf8 (String.ofList s)

def writeQueryExpr : QueryExpr → Bytes
  | .word s => writeKeyword (wordBytes s)
  | .and l r => writeAnd ++ (writeQueryExpr l ++ writeQueryExpr r)
  | .or l r => writeOr ++ (writeQueryExpr l ++ writeQueryExpr r)
  | .not l r => writeNot ++ (writeQueryExpr l ++ writeQueryExpr r)

/-- `>= min` as `> min - 1`, and nothing for 0. -/
def minSourcesTerm (min : UInt32) : Option Term :=
  if 0 < min then some (.numericMeta FT_SOURCES ED2K_SEARCH_OP_GREATER (min - 1)) else none

def filters (p : SearchParams) : List Term :=
  (p.fileType.map fun ft => .stringMeta FT_FILETYPE (utf8 ft)).toList ++
  (p.minSize.map fun sz => .numericMeta FT_FILESIZE ED2K_SEARCH_OP_GREATER sz).toList ++
  (p.maxSize.map fun sz => .numericMeta FT_FILESIZE ED2K_SEARCH_OP_LESS sz).toList ++
  (p.minSources.bind minSourcesTerm).toList ++
  (p.extension.map fun ext => .stringMeta FT_FILEFORMAT (utf8 ext)).toList

/-- The loop over the filters: an AND before each but the last. -/
def writeFilters : List Term → Bytes
  | [] => []
  | [f] => writeTerm f
  | f :: fs => writeAnd ++ (writeTerm f ++ writeFilters fs)

/-- A tree and the filters on top of it. -/
def writeTree (keyword : QueryExpr) (filters : List Term) : Bytes :=
  (if 0 < filters.length then writeAnd else []) ++ (writeQueryExpr keyword ++ writeFilters filters)

def writeSearchTree (p : SearchParams) : Bytes := writeTree (parseQuery p.keyword) (filters p)

/-! ## What a server reads -/

/-- The expressions of the format. -/
inductive WireExpr where
  | and (l r : WireExpr)
  | or (l r : WireExpr)
  | not (l r : WireExpr)
  | keyword (s : Bytes)
  | stringMeta (name s : Bytes)
  | numericMeta (name : Bytes) (op : UInt8) (value : UInt32)
deriving DecidableEq

namespace WireExpr

def bytes : WireExpr → Bytes
  | and l r => 0x00 :: 0x00 :: (l.bytes ++ r.bytes)
  | or l r => 0x00 :: 0x01 :: (l.bytes ++ r.bytes)
  | not l r => 0x00 :: 0x02 :: (l.bytes ++ r.bytes)
  | keyword s => 0x01 :: writeStringU16 s
  | stringMeta name s => 0x02 :: (writeStringU16 s ++ writeStringU16 name)
  | numericMeta name op value => 0x03 :: (writeU32 value ++ (op :: writeStringU16 name))

/-- All strings are as long as a length can tell. -/
def Fits : WireExpr → Prop
  | and l r | or l r | not l r => l.Fits ∧ r.Fits
  | keyword s => s.length ≤ 65535
  | stringMeta name s => s.length ≤ 65535 ∧ name.length ≤ 65535
  | numericMeta name _ _ => name.length ≤ 65535

def height : WireExpr → Nat
  | and l r | or l r | not l r => max l.height r.height + 1
  | keyword _ | stringMeta _ _ | numericMeta _ _ _ => 1

end WireExpr

def readKeyword : Reader WireExpr := do return .keyword (← readStringU16)

def readStringMeta : Reader WireExpr := do
  let s ← readStringU16
  let name ← readStringU16
  return .stringMeta name s

def readNumericMeta : Reader WireExpr := do
  let value ← readU32
  let op ← readU8
  let name ← readStringU16
  return .numericMeta name op value

/-- The node of an operator. -/
def boolNode (op : UInt8) (l r : WireExpr) : Reader WireExpr :=
  if op = 0x00 then return .and l r
  else if op = 0x01 then return .or l r
  else if op = 0x02 then return .not l r
  else throw (.badTag op)

/-- An operator and its operands. -/
def readBool (operand : Reader WireExpr) : Reader WireExpr := do
  let op ← readU8
  let l ← operand
  let r ← operand
  boolNode op l r

/-- What the first byte says. -/
def readKind (operand : Reader WireExpr) (kind : UInt8) : Reader WireExpr :=
  if kind = 0x00 then readBool operand
  else if kind = 0x01 then readKeyword
  else if kind = 0x02 then readStringMeta
  else if kind = 0x03 then readNumericMeta
  else throw (.badTag kind)

/-- An expression of that height at most. -/
def readExpr : Nat → Reader WireExpr
  | 0 => throw .tooBig
  | n + 1 => do
    let kind ← readU8
    readKind (readExpr n) kind

/-- An expression and what is behind it. -/
def decode (payload : Bytes) : Except IoError (WireExpr × Bytes) :=
  readExpr payload.length payload

/-! ## The encoding is read back -/

namespace WireExpr

theorem height_le (e : WireExpr) : e.height ≤ e.bytes.length := by
  induction e with
  | and l r ihl ihr =>
    simp only [height, bytes, List.length_cons, List.length_append]
    omega
  | or l r ihl ihr =>
    simp only [height, bytes, List.length_cons, List.length_append]
    omega
  | not l r ihl ihr =>
    simp only [height, bytes, List.length_cons, List.length_append]
    omega
  | keyword s => simp [height, bytes]
  | stringMeta name s => simp [height, bytes]
  | numericMeta name op value => simp [height, bytes]

theorem reads_byte (b : UInt8) : Reads readU8 [b] b := by
  have hone : writeU8 b = [b] := by
    simp [writeU8, LittleEndian.toLE]
  have hread := reads_u8 b
  rwa [hone] at hread

theorem reads_kind {n : Nat} {kind : UInt8} {rest : Bytes} {e : WireExpr}
    (h : Reads (readKind (readExpr n) kind) rest e) :
    Reads (readExpr (n + 1)) (kind :: rest) e := (reads_byte kind).bind h

theorem reads_bool {n : Nat} {op : UInt8} {l r e : WireExpr} (hl : Reads (readExpr n) l.bytes l)
    (hr : Reads (readExpr n) r.bytes r) (he : boolNode op l r = pure e) :
    Reads (readExpr (n + 1)) (0x00 :: op :: (l.bytes ++ r.bytes)) e := by
  have hnode : Reads (boolNode op l r) [] e := by
    rw [he]
    exact .pure e
  have hright : Reads (do boolNode op l (← readExpr n)) r.bytes e := by
    have hbind := hr.bind hnode
    rwa [List.append_nil] at hbind
  have hleft : Reads (do boolNode op (← readExpr n) (← readExpr n)) (l.bytes ++ r.bytes) e :=
    hl.bind hright
  exact reads_kind ((reads_byte op).bind hleft)

theorem reads (e : WireExpr) (hfits : e.Fits) {n : Nat} (hn : e.height ≤ n) :
    Reads (readExpr n) e.bytes e := by
  induction e generalizing n with
  | and l r ihl ihr =>
    obtain ⟨n, rfl⟩ : ∃ m, n = m + 1 := ⟨n - 1, by simp only [height] at hn; omega⟩
    simp only [height] at hn
    exact reads_bool (ihl hfits.1 (by omega)) (ihr hfits.2 (by omega)) rfl
  | or l r ihl ihr =>
    obtain ⟨n, rfl⟩ : ∃ m, n = m + 1 := ⟨n - 1, by simp only [height] at hn; omega⟩
    simp only [height] at hn
    exact reads_bool (ihl hfits.1 (by omega)) (ihr hfits.2 (by omega)) rfl
  | not l r ihl ihr =>
    obtain ⟨n, rfl⟩ : ∃ m, n = m + 1 := ⟨n - 1, by simp only [height] at hn; omega⟩
    simp only [height] at hn
    exact reads_bool (ihl hfits.1 (by omega)) (ihr hfits.2 (by omega)) rfl
  | keyword s =>
    obtain ⟨n, rfl⟩ : ∃ m, n = m + 1 := ⟨n - 1, by simp only [height] at hn; omega⟩
    exact reads_kind (reads_stringU16_of_le hfits).bind_pure
  | stringMeta name s =>
    obtain ⟨n, rfl⟩ : ∃ m, n = m + 1 := ⟨n - 1, by simp only [height] at hn; omega⟩
    exact reads_kind
      ((reads_stringU16_of_le hfits.1).bind (reads_stringU16_of_le hfits.2).bind_pure)
  | numericMeta name op value =>
    obtain ⟨n, rfl⟩ : ∃ m, n = m + 1 := ⟨n - 1, by simp only [height] at hn; omega⟩
    exact reads_kind ((reads_u32 value).bind
      ((reads_byte op).bind (reads_stringU16_of_le hfits).bind_pure))

/-- It decodes to itself, with nothing left. -/
theorem decode_bytes {e : WireExpr} (hfits : e.Fits) : decode e.bytes = .ok (e, []) :=
  (e.reads hfits e.height_le).run_nil

/-- No two expressions start alike: an encoding is no strict prefix of another one. -/
theorem bytes_prefix {e e' : WireExpr} {rest : Bytes} (hfits : e.Fits) (hfits' : e'.Fits)
    (h : e.bytes = e'.bytes ++ rest) : e = e' ∧ rest = [] := by
  have hread := (e.reads hfits (Nat.le_max_left e.height e'.height)).run_nil
  have hread' := e'.reads hfits' (Nat.le_max_right e.height e'.height) rest
  rw [← h, hread] at hread'
  cases hread'
  exact ⟨rfl, rfl⟩

end WireExpr

/-! ## What is read fits -/

theorem fits_of_boolNode {op : UInt8} {l r e : WireExpr} {s s' : Bytes}
    (h : boolNode op l r s = .ok (e, s')) (hl : l.Fits) (hr : r.Fits) : e.Fits := by
  unfold boolNode at h
  split_ifs at h
  · cases h
    exact ⟨hl, hr⟩
  · cases h
    exact ⟨hl, hr⟩
  · cases h
    exact ⟨hl, hr⟩
  · cases h

theorem fits_of_readKind {operand : Reader WireExpr}
    (hoperand : ∀ s e s', operand s = .ok (e, s') → e.Fits) {kind : UInt8} {e : WireExpr}
    {s s' : Bytes} (h : readKind operand kind s = .ok (e, s')) : e.Fits := by
  unfold readKind at h
  split_ifs at h
  · obtain ⟨op, s₁, -, h⟩ := ok_bind h
    obtain ⟨l, s₂, hl, h⟩ := ok_bind h
    obtain ⟨r, s₃, hr, h⟩ := ok_bind h
    exact fits_of_boolNode h (hoperand _ _ _ hl) (hoperand _ _ _ hr)
  · obtain ⟨str, s₁, hstr, h⟩ := ok_bind h
    cases h
    exact length_of_readStringU16 hstr
  · obtain ⟨str, s₁, hstr, h⟩ := ok_bind h
    obtain ⟨name, s₂, hname, h⟩ := ok_bind h
    cases h
    exact ⟨length_of_readStringU16 hstr, length_of_readStringU16 hname⟩
  · obtain ⟨value, s₁, -, h⟩ := ok_bind h
    obtain ⟨op, s₂, -, h⟩ := ok_bind h
    obtain ⟨name, s₃, hname, h⟩ := ok_bind h
    cases h
    exact length_of_readStringU16 hname
  · cases h

theorem fits_of_readExpr {n : Nat} {e : WireExpr} {s s' : Bytes}
    (h : readExpr n s = .ok (e, s')) : e.Fits := by
  induction n generalizing e s s' with
  | zero => cases h
  | succ n ih =>
    obtain ⟨kind, s₁, -, h⟩ := ok_bind h
    exact fits_of_readKind (fun _ _ _ hread => ih hread) h

/-- Exactly the expressions whose strings fit come back. -/
theorem decode_iff (e : WireExpr) : decode e.bytes = .ok (e, []) ↔ e.Fits :=
  ⟨fun h => fits_of_readExpr h, WireExpr.decode_bytes⟩

/-! ## What is sent -/

def sentQuery : QueryExpr → WireExpr
  | .word s => .keyword (wordBytes s)
  | .and l r => .and (sentQuery l) (sentQuery r)
  | .or l r => .or (sentQuery l) (sentQuery r)
  | .not l r => .not (sentQuery l) (sentQuery r)

def Term.sent : Term → WireExpr
  | .stringMeta id s => .stringMeta [id] s
  | .numericMeta id op v => .numericMeta [id] op v

/-- The AND of expressions, from the right. -/
def allOf : WireExpr → List WireExpr → WireExpr
  | e, [] => e
  | e, f :: fs => .and e (allOf f fs)

theorem bytes_sentQuery (e : QueryExpr) : (sentQuery e).bytes = writeQueryExpr e := by
  induction e with
  | word s => rfl
  | and l r ihl ihr =>
    rw [sentQuery, WireExpr.bytes, ihl, ihr]
    rfl
  | or l r ihl ihr =>
    rw [sentQuery, WireExpr.bytes, ihl, ihr]
    rfl
  | not l r ihl ihr =>
    rw [sentQuery, WireExpr.bytes, ihl, ihr]
    rfl

theorem bytes_sentTerm (t : Term) : t.sent.bytes = writeTerm t := by
  cases t <;> rfl

theorem bytes_filters (f : Term) (fs : List Term) :
    (allOf f.sent (fs.map Term.sent)).bytes = writeFilters (f :: fs) := by
  induction fs generalizing f with
  | nil => exact bytes_sentTerm f
  | cons g fs ih =>
    have hmore : writeFilters (f :: g :: fs) =
        writeAnd ++ (writeTerm f ++ writeFilters (g :: fs)) := rfl
    rw [List.map_cons, allOf, WireExpr.bytes, ih, bytes_sentTerm, hmore]
    rfl

theorem bytes_tree (keyword : QueryExpr) (fs : List Term) :
    (allOf (sentQuery keyword) (fs.map Term.sent)).bytes = writeTree keyword fs := by
  cases fs with
  | nil =>
    rw [List.map_nil, allOf, bytes_sentQuery]
    exact (List.append_nil _).symm
  | cons f fs =>
    rw [List.map_cons, allOf, WireExpr.bytes, bytes_filters, bytes_sentQuery]
    rfl

/-- The words have at most as many bytes as a length can tell. -/
def WordsFit : QueryExpr → Prop
  | .word s => (wordBytes s).length ≤ 65535
  | .and l r | .or l r | .not l r => WordsFit l ∧ WordsFit r

/-- And so have the file type and the extension. -/
structure FiltersFit (p : SearchParams) : Prop where
  fileType : ∀ s, p.fileType = some s → (utf8 s).length ≤ 65535
  extension : ∀ s, p.extension = some s → (utf8 s).length ≤ 65535

theorem fits_sentQuery {e : QueryExpr} (h : WordsFit e) : (sentQuery e).Fits := by
  induction e with
  | word s => exact h
  | and l r ihl ihr => exact ⟨ihl h.1, ihr h.2⟩
  | or l r ihl ihr => exact ⟨ihl h.1, ihr h.2⟩
  | not l r ihl ihr => exact ⟨ihl h.1, ihr h.2⟩

theorem fits_filters {p : SearchParams} (h : FiltersFit p) : ∀ t ∈ filters p, t.sent.Fits := by
  intro t ht
  simp only [filters, List.mem_append, Option.mem_toList, Option.map_eq_some_iff,
    Option.bind_eq_some_iff] at ht
  rcases ht with (((⟨s, hs, rfl⟩ | ⟨sz, -, rfl⟩) | ⟨sz, -, rfl⟩) | ⟨min, -, hmin⟩) | ⟨s, hs, rfl⟩
  · exact ⟨h.fileType s hs, by decide⟩
  · show ([FT_FILESIZE] : Bytes).length ≤ 65535
    decide
  · show ([FT_FILESIZE] : Bytes).length ≤ 65535
    decide
  · unfold minSourcesTerm at hmin
    split_ifs at hmin
    cases hmin
    show ([FT_SOURCES] : Bytes).length ≤ 65535
    decide
  · exact ⟨h.extension s hs, by decide⟩

theorem fits_allOf {e : WireExpr} {fs : List WireExpr} (he : e.Fits) (hfs : ∀ f ∈ fs, f.Fits) :
    (allOf e fs).Fits := by
  induction fs generalizing e with
  | nil => exact he
  | cons f fs ih =>
    obtain ⟨hf, hrest⟩ := List.forall_mem_cons.mp hfs
    exact ⟨he, ih hf hrest⟩

/-- The expression that the payload of a search stands for. -/
def wireOf (keyword : QueryExpr) (p : SearchParams) : WireExpr :=
  allOf (sentQuery keyword) ((filters p).map Term.sent)

theorem fits_wireOf {keyword : QueryExpr} {p : SearchParams} (hkeyword : WordsFit keyword)
    (hp : FiltersFit p) : (wireOf keyword p).Fits :=
  fits_allOf (fits_sentQuery hkeyword) fun f hf => by
    obtain ⟨t, ht, rfl⟩ := List.mem_map.mp hf
    exact fits_filters hp t ht

/-- A tree printed in any way its precedences allow is parsed to the tree; and the payload of a
    search is a prefix encoding of the AND of its tree and the filters that are set, in order, and
    of nothing else. -/
theorem search_query_compiles :
    (∀ e toks s, Prints MAX_DEPTH .and e toks → Spells false toks s → parseQuery s = e) ∧
    (∀ p, writeSearchTree p = writeTree (parseQuery p.keyword) (filters p)) ∧
    ∀ keyword p, WordsFit keyword → FiltersFit p →
      decode (writeTree keyword (filters p)) = .ok (wireOf keyword p, []) ∧
      ∀ e rest, WireExpr.Fits e → writeTree keyword (filters p) = e.bytes ++ rest →
        e = wireOf keyword p ∧ rest = [] := by
  refine ⟨fun e toks s h hs => parseQuery_printed h hs, fun p => rfl,
    fun keyword p hkeyword hp => ?_⟩
  have hfits := fits_wireOf hkeyword hp
  rw [← bytes_tree]
  refine ⟨WireExpr.decode_bytes hfits, fun e rest he heq => ?_⟩
  obtain ⟨hsame, hrest⟩ := WireExpr.bytes_prefix hfits he heq
  exact ⟨hsame.symm, hrest⟩

/-- Words, an operator, a phrase, and two filters. -/
theorem search_query_compiles_phrase :
    let e : QueryExpr := .and (.or (.word ['a']) (.word ['b'])) (.word ['c', ' ', 'd'])
    let p : SearchParams := ⟨[], none, none, none, some 3, some "avi"⟩
    parseQuery ['a', ' ', 'O', 'R', ' ', 'b', '"', 'c', ' ', 'd', '"'] = e ∧
      decode (writeTree e (filters p)) = .ok (wireOf e p, []) := by
  intro e p
  have hprints : Prints MAX_DEPTH .and e [.word ['a'], .or, .word ['b'], .word ['c', ' ', 'd']] :=
    .adjacent (.or_and (.or (.not_or (.primary_not (.word _ _))) (.primary_not (.word _ _))))
      (.not_or (.primary_not (.word _ _)))
  have hspells : Spells false [.word ['a'], .or, .word ['b'], .word ['c', ' ', 'd']]
      ['a', ' ', 'O', 'R', ' ', 'b', '"', 'c', ' ', 'd', '"'] :=
    .bare (w := ['a']) (by decide) (bare_of_all rfl) <| .space _ (by decide) <|
      .bare (w := ['O', 'R']) (by decide) (bare_of_all rfl) <| .space _ (by decide) <|
        .bare (w := ['b']) (by decide) (bare_of_all rfl) <|
          .quoted _ (w := ['c', ' ', 'd']) (by decide) (by decide) (.done _)
  have hwords : WordsFit e := by
    refine ⟨⟨?_, ?_⟩, ?_⟩
    all_goals
      unfold WordsFit
      decide
  have hfilters : FiltersFit p := by
    refine ⟨nofun, fun s hs => ?_⟩
    cases hs
    decide
  exact ⟨search_query_compiles.1 e _ _ hprints hspells,
    (search_query_compiles.2.2 e p hwords hfilters).1⟩

/-! ## Strings that do not fit -/

def longExtension : String := String.ofList (List.replicate 65536 'a')

/-- An extension of 65536 bytes is cut by one. -/
theorem long_extension_is_cut :
    decode (writeTree (.word ['a']) (filters ⟨['a'], none, none, none, none, some longExtension⟩)) ≠
      .ok (wireOf (.word ['a']) ⟨['a'], none, none, none, none, some longExtension⟩, []) := by
  intro h
  rw [← bytes_tree] at h
  have hfits : (utf8 longExtension).length ≤ 65535 := ((decode_iff _).mp h).2.1
  have hlong := LossyUtf8.length_le_utf8Bytes (List.replicate 65536 'a')
  rw [List.length_replicate, ← utf8_ofList] at hlong
  exact absurd (hlong.trans hfits) (by decide)

end PadMule.Engine.SearchTree
