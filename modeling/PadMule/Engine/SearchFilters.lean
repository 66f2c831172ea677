import PadMule.Engine.SearchTree
import PadMule.Engine.Catalog

/-
  `mule-engine/src/engine.rs`: the limits of a search, on the wire and on the rows that come back.

  The rows are filtered again here, because not every answer has passed the server. Here the limits
  of the size belong to the range; on the wire the operators are "greater than" and "less than" and
  the limits go out as they are, so the server leaves out a file that has the size of a limit
  (`remote_filter_never_stricter`). The number of sources goes out as one less and agrees.
-/

namespace PadMule.Engine.Search

open PadMule.Proto SearchQuery Catalog
open SearchTree (SearchParams WireExpr Term writeSearchTree writeTree decode allOf sentQuery
  ED2K_SEARCH_OP_GREATER ED2K_SEARCH_OP_LESS)

structure SearchFilters where
  minSources : Option UInt32
  minSize : Option UInt64
  maxSize : Option UInt64
deriving DecidableEq

/-- What `search` asks the server for: a least size is cut to 32 bits, a greatest size of more is
    left out. -/
def searchParams (keyword : List Char) (limits : SearchFilters) : SearchParams where
  keyword := trimMatches isWhitespace keyword
  fileType := none
  minSize := limits.minSize.map fun b => (min b 0xFFFFFFFF).toUInt32
  maxSize := limits.maxSize.bind fun b => if b ≤ 0xFFFFFFFF then some b.toUInt32 else none
  minSources := limits.minSources
  extension := none

def passes (limits : SearchFilters) (r : RankedFile) : Bool :=
  limits.minSources.all (· ≤ r.sources) && limits.minSize.all (· ≤ r.size) &&
    limits.maxSize.all (r.size ≤ ·)

def applySearchFilters (ranked : List RankedFile) (limits : SearchFilters) : List RankedFile :=
  ranked.filter (passes limits)

/-! ## How a server judges a file -/

/-- The numbers of a file that a term can name. -/
def numberOf (f : RankedFile) (name : Bytes) : Option Nat :=
  if name = [SearchTree.FT_FILESIZE] then some f.size.toNat
  else if name = [SearchTree.FT_SOURCES] then some f.sources.toNat
  else none

def compares (op : UInt8) (value number : Nat) : Bool :=
  if op = ED2K_SEARCH_OP_GREATER then value < number
  else if op = ED2K_SEARCH_OP_LESS then number < value
  else false

/-- The operators, and the numbers by theirs. What a server makes of words is up to it. -/
def accepts (strings : WireExpr → Bool) (f : RankedFile) : WireExpr → Bool
  | .and l r => accepts strings f l && accepts strings f r
  | .or l r => accepts strings f l || accepts strings f r
  | .not l r => accepts strings f l && !accepts strings f r
  | .numericMeta name op value => (numberOf f name).any (compares op value.toNat)
  | .keyword s => strings (.keyword s)
  | .stringMeta name s => strings (.stringMeta name s)

theorem accepts_allOf (strings : WireExpr → Bool) (f : RankedFile) (e : WireExpr)
    (fs : List WireExpr) :
    accepts strings f (allOf e fs) = (accepts strings f e && fs.all (accepts strings f)) := by
  induction fs generalizing e with
  | nil => simp [allOf]
  | cons g fs ih => rw [allOf, accepts, ih, List.all_cons]

/-! ## What a server reads -/

/-- Strings are cut where their lengths end. -/
def capped : WireExpr → WireExpr
  | .and l r => .and (capped l) (capped r)
  | .or l r => .or (capped l) (capped r)
  | .not l r => .not (capped l) (capped r)
  | .keyword s => .keyword (s.take 65535)
  | .stringMeta name s => .stringMeta (name.take 65535) (s.take 65535)
  | .numericMeta name op value => .numericMeta (name.take 65535) op value

theorem writeStringU16_take (s : Bytes) : writeStringU16 (s.take 65535) = writeStringU16 s := by
  have hmin : min (min 65535 s.length) 65535 = min s.length 65535 := by omega
  have htake : min (min s.length 65535) 65535 = min s.length 65535 := by omega
  simp only [writeStringU16, List.length_take, List.take_take, hmin, htake]

theorem bytes_capped (e : WireExpr) : (capped e).bytes = e.bytes := by
  induction e with
  | and l r ihl ihr => rw [capped, WireExpr.bytes, ihl, ihr]; rfl
  | or l r ihl ihr => rw [capped, WireExpr.bytes, ihl, ihr]; rfl
  | not l r ihl ihr => rw [capped, WireExpr.bytes, ihl, ihr]; rfl
  | keyword s => rw [capped, WireExpr.bytes, writeStringU16_take]; rfl
  | stringMeta name s =>
    rw [capped, WireExpr.bytes, writeStringU16_take, writeStringU16_take]
    rfl
  | numericMeta name op value => rw [capped, WireExpr.bytes, writeStringU16_take]; rfl

theorem fits_capped (e : WireExpr) : (capped e).Fits := by
  induction e with
  | and l r ihl ihr => exact ⟨ihl, ihr⟩
  | or l r ihl ihr => exact ⟨ihl, ihr⟩
  | not l r ihl ihr => exact ⟨ihl, ihr⟩
  | keyword s => exact List.length_take_le _ s
  | stringMeta name s => exact ⟨List.length_take_le _ s, List.length_take_le _ name⟩
  | numericMeta name op value => exact List.length_take_le _ name

theorem capped_allOf (e : WireExpr) (fs : List WireExpr) :
    capped (allOf e fs) = allOf (capped e) (fs.map capped) := by
  induction fs generalizing e with
  | nil => rfl
  | cons f fs ih => rw [allOf, capped, ih, List.map_cons, allOf]

theorem decode_bytes_capped (e : WireExpr) : decode e.bytes = .ok (capped e, []) := by
  rw [← bytes_capped]
  exact WireExpr.decode_bytes (fits_capped e)

/-! ## The limits on the wire -/

def minSizeTerm (b : UInt64) : Term :=
  .numericMeta SearchTree.FT_FILESIZE ED2K_SEARCH_OP_GREATER (min b 0xFFFFFFFF).toUInt32

def maxSizeTerm (b : UInt64) : Option Term :=
  if b ≤ 0xFFFFFFFF then
    some (.numericMeta SearchTree.FT_FILESIZE ED2K_SEARCH_OP_LESS b.toUInt32)
  else none

/-- The terms that go out for the limits. -/
def terms (limits : SearchFilters) : List Term :=
  (limits.minSize.map minSizeTerm).toList ++ (limits.maxSize.bind maxSizeTerm).toList ++
    (limits.minSources.bind SearchTree.minSourcesTerm).toList

theorem filters_searchParams (keyword : List Char) (limits : SearchFilters) :
    SearchTree.filters (searchParams keyword limits) = terms limits := by
  have hmax : (limits.maxSize.bind fun b => if b ≤ 0xFFFFFFFF then some b.toUInt32 else none).map
      (fun sz => Term.numericMeta SearchTree.FT_FILESIZE ED2K_SEARCH_OP_LESS sz) =
        limits.maxSize.bind maxSizeTerm := by
    rw [Option.map_bind]
    refine congrArg limits.maxSize.bind (funext fun b => ?_)
    rw [maxSizeTerm, Function.comp_apply]
    split_ifs <;> rfl
  unfold SearchTree.filters searchParams terms
  dsimp only
  rw [hmax, Option.map_map]
  simp only [Option.map_none, Option.toList_none, List.nil_append, List.append_nil]
  rfl

/-- The expression of the keyword alone, as the server reads it. -/
def sentKeyword (keyword : List Char) : WireExpr :=
  capped (sentQuery (parseQuery (trimMatches isWhitespace keyword)))

theorem capped_terms {limits : SearchFilters} {t : Term} (h : t ∈ terms limits) :
    capped t.sent = t.sent := by
  simp only [terms, List.mem_append, Option.mem_toList, Option.map_eq_some_iff,
    Option.bind_eq_some_iff] at h
  rcases h with (⟨b, -, rfl⟩ | ⟨b, -, hb⟩) | ⟨m, -, hm⟩
  · rfl
  · unfold maxSizeTerm at hb
    split_ifs at hb
    cases hb
    rfl
  · unfold SearchTree.minSourcesTerm at hm
    split_ifs at hm
    cases hm
    rfl

theorem decode_search (keyword : List Char) (limits : SearchFilters) :
    decode (writeSearchTree (searchParams keyword limits)) =
      .ok (allOf (sentKeyword keyword) ((terms limits).map Term.sent), []) := by
  have hcapped : ((terms limits).map Term.sent).map capped = (terms limits).map Term.sent := by
    rw [List.map_map]
    exact List.map_congr_left fun t ht => capped_terms ht
  rw [writeSearchTree, filters_searchParams, ← SearchTree.bytes_tree, decode_bytes_capped,
    capped_allOf, hcapped]
  rfl

section Judged

variable (strings : WireExpr → Bool) (f : RankedFile)

theorem accepts_minSize (b : UInt64) :
    accepts strings f (minSizeTerm b).sent = true ↔ min b.toNat (2 ^ 32 - 1) < f.size.toNat := by
  have hvalue : (min b 0xFFFFFFFF : UInt64).toUInt32.toNat = min b.toNat (2 ^ 32 - 1) := by
    have hmin : (min b 0xFFFFFFFF : UInt64).toNat = min b.toNat (2 ^ 32 - 1) := by
      rcases le_total b 0xFFFFFFFF with hle | hle
      · rw [min_eq_left hle]
        exact (Nat.min_eq_left (UInt64.le_iff_toNat_le.mp hle)).symm
      · rw [min_eq_right hle]
        exact (Nat.min_eq_right (UInt64.le_iff_toNat_le.mp hle)).symm
    rw [UInt64.toNat_toUInt32, hmin]
    omega
  show decide ((min b 0xFFFFFFFF : UInt64).toUInt32.toNat < f.size.toNat) = true ↔ _
  rw [hvalue, decide_eq_true_eq]

theorem accepts_maxSize (b : UInt64) :
    (∀ t, maxSizeTerm b = some t → accepts strings f t.sent = true) ↔
      (b.toNat < 2 ^ 32 → f.size.toNat < b.toNat) := by
  have hsmall : b ≤ 0xFFFFFFFF ↔ b.toNat < 2 ^ 32 := by
    rw [UInt64.le_iff_toNat_le]
    exact Nat.lt_succ_iff.symm
  unfold maxSizeTerm
  split_ifs with hb
  · have hb' := hsmall.mp hb
    have hvalue : b.toUInt32.toNat = b.toNat := by
      rw [UInt64.toNat_toUInt32, Nat.mod_eq_of_lt hb']
    have hterm : accepts strings f
        (Term.numericMeta SearchTree.FT_FILESIZE ED2K_SEARCH_OP_LESS b.toUInt32).sent =
          decide (f.size.toNat < b.toUInt32.toNat) := rfl
    simp only [Option.some.injEq, forall_eq', hterm, hvalue, decide_eq_true_eq, hb', forall_const]
  · exact iff_of_true nofun fun hlt => absurd (hsmall.mpr hlt) hb

theorem accepts_minSources (m : UInt32) :
    (∀ t, SearchTree.minSourcesTerm m = some t → accepts strings f t.sent = true) ↔
      m.toNat ≤ f.sources.toNat := by
  unfold SearchTree.minSourcesTerm
  split_ifs with hm
  · have hm' : 0 < m.toNat := UInt32.lt_iff_toNat_lt.mp hm
    have hvalue : (m - 1).toNat = m.toNat - 1 :=
      UInt32.toNat_sub_of_le m 1 (UInt32.le_iff_toNat_le.mpr hm')
    have hterm : accepts strings f
        (Term.numericMeta SearchTree.FT_SOURCES ED2K_SEARCH_OP_GREATER (m - 1)).sent =
          decide ((m - 1).toNat < f.sources.toNat) := rfl
    simp only [Option.some.injEq, forall_eq', hterm, hvalue, decide_eq_true_eq]
    omega
  · have hm' : m.toNat = 0 := by
      rw [UInt32.lt_iff_toNat_lt] at hm
      exact Nat.eq_zero_of_not_pos hm
    exact iff_of_true nofun (by omega)

theorem accepts_terms (limits : SearchFilters) :
    ((terms limits).map Term.sent).all (accepts strings f) = true ↔
      (∀ b, limits.minSize = some b → min b.toNat (2 ^ 32 - 1) < f.size.toNat) ∧
      (∀ b, limits.maxSize = some b → b.toNat < 2 ^ 32 → f.size.toNat < b.toNat) ∧
      ∀ m, limits.minSources = some m → m.toNat ≤ f.sources.toNat := by
  have hall (p : Term → Prop) : (∀ t ∈ terms limits, p t) ↔
      (∀ b, limits.minSize = some b → p (minSizeTerm b)) ∧
      (∀ b, limits.maxSize = some b → ∀ t, maxSizeTerm b = some t → p t) ∧
      ∀ m, limits.minSources = some m → ∀ t, SearchTree.minSourcesTerm m = some t → p t := by
    simp only [terms, List.mem_append, Option.mem_toList, Option.map_eq_some_iff,
      Option.bind_eq_some_iff]
    constructor
    · intro h
      exact ⟨fun b hb => h _ (.inl (.inl ⟨b, hb, rfl⟩)),
        fun b hb t ht => h t (.inl (.inr ⟨b, hb, ht⟩)), fun m hm t ht => h t (.inr ⟨m, hm, ht⟩)⟩
    · rintro ⟨hmin, hmax, hsources⟩ t ((⟨b, hb, rfl⟩ | ⟨b, hb, ht⟩) | ⟨m, hm, ht⟩)
      exacts [hmin b hb, hmax b hb t ht, hsources m hm t ht]
  rw [List.all_map, List.all_eq_true]
  refine (hall fun t => accepts strings f t.sent = true).trans ?_
  simp only [accepts_minSize, accepts_maxSize, accepts_minSources]

end Judged

/-! ## Which files the server leaves out -/

/-- The file is inside its range. -/
structure WithinLimits (limits : SearchFilters) (f : RankedFile) : Prop where
  sources : ∀ m, limits.minSources = some m → m.toNat ≤ f.sources.toNat
  minSize : ∀ b, limits.minSize = some b → b.toNat ≤ f.size.toNat
  maxSize : ∀ b, limits.maxSize = some b → f.size.toNat ≤ b.toNat

/-- Its size is a limit that fits in 32 bits. -/
def OnLimit (limits : SearchFilters) (f : RankedFile) : Prop :=
  f.size.toNat < 2 ^ 32 ∧ (limits.minSize = some f.size ∨ limits.maxSize = some f.size)

theorem passes_iff (limits : SearchFilters) (f : RankedFile) :
    passes limits f = true ↔ WithinLimits limits f := by
  have hall {α : Type} (o : Option α) (p : α → Bool) :
      o.all p = true ↔ ∀ a, o = some a → p a = true := by
    cases o <;> simp
  simp only [passes, Bool.and_eq_true, hall, decide_eq_true_eq, UInt32.le_iff_toNat_le,
    UInt64.le_iff_toNat_le]
  constructor
  · rintro ⟨⟨hsources, hmin⟩, hmax⟩
    exact ⟨hsources, hmin, hmax⟩
  · intro h
    exact ⟨⟨h.sources, h.minSize⟩, h.maxSize⟩

/-- What the local filter keeps of a file that the keyword finds, the whole query finds. -/
def NeverStricter (limits : SearchFilters) (f : RankedFile) : Prop :=
  ∀ ranked, f ∈ applySearchFilters ranked limits → ∀ keyword strings,
    ∃ e, decode (writeSearchTree (searchParams keyword limits)) = .ok (e, []) ∧
      (accepts strings f (sentKeyword keyword) = true → accepts strings f e = true)

/-- On a file in its range, the server's answer is that of the keyword if the size is no limit. -/
theorem accepts_terms_iff (strings : WireExpr → Bool) {limits : SearchFilters} {f : RankedFile}
    (h : WithinLimits limits f) :
    ((terms limits).map Term.sent).all (accepts strings f) = true ↔ ¬ OnLimit limits f := by
  rw [accepts_terms]
  constructor
  · rintro ⟨hmin, hmax, -⟩ ⟨hsize, hon | hon⟩
    · have := hmin f.size hon
      omega
    · exact absurd (hmax f.size hon hsize) (lt_irrefl _)
  · intro hoff
    have hne : f.size.toNat < 2 ^ 32 → ∀ b : UInt64,
        limits.minSize = some b ∨ limits.maxSize = some b → b.toNat ≠ f.size.toNat := by
      intro hsize b hb heq
      obtain rfl : b = f.size := UInt64.toNat_inj.mp heq
      exact hoff ⟨hsize, hb⟩
    refine ⟨fun b hb => ?_, fun b hb hsmall => ?_, h.sources⟩
    · have hle := h.minSize b hb
      have hne := fun hsize => hne hsize b (.inl hb)
      omega
    · have hle := h.maxSize b hb
      have hne := hne (by omega) b (.inr hb)
      omega

theorem neverStricter_of_off {limits : SearchFilters} {f : RankedFile}
    (h : ¬ (WithinLimits limits f ∧ OnLimit limits f)) : NeverStricter limits f := by
  intro ranked hkept keyword strings
  have hwithin := (passes_iff limits f).mp (List.mem_filter.mp hkept).2
  have hterms := (accepts_terms_iff strings hwithin).mpr fun hon => h ⟨hwithin, hon⟩
  refine ⟨_, decode_search keyword limits, fun hword => ?_⟩
  rw [accepts_allOf, hword, hterms]
  rfl

theorem off_of_neverStricter {limits : SearchFilters} {f : RankedFile}
    (h : NeverStricter limits f) : ¬ (WithinLimits limits f ∧ OnLimit limits f) := by
  rintro ⟨hwithin, hon⟩
  have hkept : f ∈ applySearchFilters [f] limits :=
    List.mem_filter.mpr ⟨List.mem_singleton_self f, (passes_iff limits f).mpr hwithin⟩
  -- a keyword of one word, which is found in everything
  obtain ⟨e, hdecode, haccepts⟩ := h [f] hkept ['a'] fun _ => true
  rw [decode_search] at hdecode
  cases hdecode
  have hword : parseQuery (trimMatches isWhitespace ['a']) = .word ['a'] :=
    parseQuery_printed (.or_and (.not_or (.primary_not (.word _ _))))
      (.bare (w := ['a']) (by decide) (bare_of_all rfl) (.done _))
  have hall := haccepts (by rw [sentKeyword, hword]; rfl)
  rw [accepts_allOf, Bool.and_eq_true] at hall
  exact (accepts_terms_iff _ hwithin).mp hall.2 hon

/-- The query on the wire is no stricter than the local filter, except on the files inside the
    range whose size is a limit of at most 32 bits. -/
theorem remote_filter_never_stricter (limits : SearchFilters) (f : RankedFile) :
    NeverStricter limits f ↔ ¬ (WithinLimits limits f ∧ OnLimit limits f) :=
  ⟨off_of_neverStricter, neverStricter_of_off⟩

/-- A file of the greatest size that is asked for. -/
def fileOnLimit : RankedFile :=
  Group.row (Digest.fill 16 0x11) { sizes := [(700, 1)], names := [("a.iso", 1)], sources := 3 }

/-- The local filter keeps it and the server does not send it. -/
theorem file_on_limit_is_hidden :
    ¬ ∀ (limits : SearchFilters) (f : RankedFile), NeverStricter limits f := by
  intro h
  refine off_of_neverStricter (h ⟨none, none, some 700⟩ fileOnLimit) ⟨⟨nofun, nofun, ?_⟩, ?_, ?_⟩
  · intro b hb
    cases hb
    decide
  · decide
  · exact .inr rfl

end PadMule.Engine.Search
