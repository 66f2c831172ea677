import PadMule.Engine.PartStore

/-
  Resuming from a saved part.met: `open` after `save_met`.

  What a save can lose is known exactly. `readPartMet_metOf` says which part.met comes
  back: string values cut at 65535 bytes, the tag list cut at its count modulo 2^32. The
  first cut can only hit the corrupted-part text, and a cut text never parses to the
  list it came from; the second only a gap list of some two billion entries, which then
  comes back shorter. `open_saveMet_iff` puts the two together.
-/

namespace PadMule.Engine

open Spans Files PadMule.Proto Decimal

/-- Length of the corrupted-part text: every number's digits, and commas between. -/
def corruptedTextLength (parts : List Nat) : Nat :=
  (parts.map fun p => (toDecimal p).length).sum + (parts.length - 1)

/-- How many tags a save writes. -/
def tagCount (s : PartStore) : Nat :=
  4 + (if s.pf.corrupted = [] then 0 else 1) + (if s.paused then 1 else 0) + 2 * s.pf.gaps.length

theorem length_metOf_tags (s : PartStore) : s.metOf.tags.length = tagCount s := by
  unfold PartStore.metOf PartStore.baseTags tagCount
  simp only [List.length_append, length_gapTags]
  split <;> split <;> simp

/-! ## The tags of a save -/

/-- The tags before the gap list have numeric ids; only name and corrupted text can be
    too long to write. -/
theorem mem_baseTags {s : PartStore} {t : Tag} (ht : t ∈ s.baseTags) :
    ∃ id v, t = Tag.ofId id v ∧
      (v = .str s.name ∨ v = .str (CommaList.format s.pf.corrupted) ∨ v.Writable) := by
  simp only [PartStore.baseTags, List.mem_append] at ht
  rcases ht with ((ht | ht) | ht) | ht
  · rcases List.mem_pair.mp ht with rfl | rfl
    · exact ⟨_, _, rfl, Or.inl rfl⟩
    · refine ⟨_, _, rfl, Or.inr (Or.inr ?_)⟩
      unfold gapValue
      cases s.large <;> exact trivial
  · split at ht
    · cases ht
    · exact ⟨_, _, List.mem_singleton.mp ht, Or.inr (Or.inl rfl)⟩
  · rcases List.mem_pair.mp ht with rfl | rfl <;>
      exact ⟨_, _, rfl, Or.inr (Or.inr trivial)⟩
  · split at ht
    · exact ⟨_, _, List.mem_singleton.mp ht, Or.inr (Or.inr trivial)⟩
    · cases ht

theorem baseTags_ids (s : PartStore) : ∀ t ∈ s.baseTags, ∃ id, t.name = .id id := by
  intro t ht
  obtain ⟨id, v, rfl, -⟩ := mem_baseTags ht
  exact ⟨id, rfl⟩

/-- A gap tag's name: a kind byte and at most twenty digits; its value is an integer. -/
theorem gapTags_writable {gs : List Gap} (h : gs.length ≤ 2 ^ 64) (large : Bool) :
    ∀ t ∈ gapTags gs large, (∃ b, t.name = .str b) ∧ t.Writable := by
  have hname : ∀ kind : UInt8, ∀ i < 2 ^ 64, ∀ v,
      (∃ b, (gapTag kind large i v).name = .str b) ∧ (gapTag kind large i v).Writable := by
    intro kind i hi v
    obtain ⟨ds, hds, -, -, hpow⟩ := toDecimal_eq_map i
    have hpos := List.length_pos_of_ne_nil (toDecimal_ne_nil i)
    have hlen : (toDecimal i).length = ds.length := by rw [hds, List.length_map]
    have hlt : ds.length < 21 := by
      refine (Nat.pow_lt_pow_iff_right (a := 10) (by decide)).mp (hpow.trans_lt ?_)
      omega
    refine ⟨⟨_, rfl⟩, ?_, ?_⟩
    · show (kind :: toDecimal i).length ≤ 65535 ∧ (kind :: toDecimal i).length ≠ 1
      rw [List.length_cons, hlen]
      omega
    · unfold gapTag gapValue
      cases large <;> exact trivial
  intro t ht
  obtain ⟨p, hp, ht⟩ := List.mem_flatMap.mp ht
  have hlt := List.snd_lt_of_mem_zipIdx hp
  rcases List.mem_pair.mp ht with rfl | rfl
  · exact hname _ _ (by omega) _
  · exact hname _ _ (by omega) _

/-- A search that no string-named tag satisfies stops before the gap tags. -/
theorem find_append_gapTags {gs : List Gap} (h : gs.length ≤ 2 ^ 64) (large : Bool)
    {p : Tag → Bool} (hp : ∀ t b, t.name = .str b → p t = false) (base : List Tag) :
    (base ++ gapTags gs large).find? p = base.find? p := by
  have hnone : (gapTags gs large).find? p = none := by
    refine List.find?_eq_none.mpr fun t ht => ?_
    obtain ⟨⟨b, hb⟩, -⟩ := gapTags_writable h large t ht
    simp [hp t b hb]
  rw [List.find?_append, hnone, Option.or_none]

theorem findTag_append_gapTags {gs : List Gap} (h : gs.length ≤ 2 ^ 64) (large : Bool) (id : UInt8)
    (base : List Tag) : findTag id (base ++ gapTags gs large) = findTag id base :=
  find_append_gapTags h large (fun t b hb => by simp [hb]) base

theorem findTag_map_capped (id : UInt8) (ts : List Tag) :
    findTag id (ts.map Tag.capped) = (findTag id ts).map Tag.capped := by
  unfold findTag
  rw [List.find?_map]
  rfl

/-! ## What the tags say -/

theorem PartStore.GapsOk.length_gaps_le {s : PartStore} (h : s.GapsOk) : s.pf.gaps.length ≤ 2 ^ 64 := by
  have hlen := length_le_total h.pf.tidy.nonempty
  have hmissing := h.pf.missing_le
  have hsize := h.size_lt
  rw [PartFile.missing_eq_total] at hmissing
  omega

theorem PartStore.GapsOk.gapFits {s : PartStore} (h : s.GapsOk) {v : Nat} (hv : v ≤ s.pf.size) :
    GapFits s.large v := by
  have hsize := h.size_lt
  unfold GapFits PartStore.large
  split
  · omega
  · rename_i hl
    have hle : s.pf.size ≤ OLD_MAX_FILE_SIZE := by simpa using hl
    exact (hv.trans hle).trans_lt (by decide)

theorem PartStore.GapsOk.gaps_fit {s : PartStore} (h : s.GapsOk) :
    ∀ g ∈ s.pf.gaps, GapFits s.large g.start ∧ GapFits s.large g.stop := by
  intro g hg
  have hstop := h.pf.stop_le g hg
  have hne := h.pf.tidy.nonempty g hg
  exact ⟨h.gapFits (by omega), h.gapFits hstop⟩

theorem metSize_metOf {s : PartStore} (h : s.Ok) : metSize s.metOf.tags = some s.pf.size := by
  have hfind : findTag FT_FILESIZE s.baseTags =
      some (Tag.ofId FT_FILESIZE (gapValue s.large s.pf.size)) := by
    simp [findTag, PartStore.baseTags, Tag.ofId, FT_FILENAME, FT_FILESIZE]
  rw [metSize, PartStore.metOf, findTag_append_gapTags h.length_gaps_le, hfind]
  exact tagU64_gapValue (h.gapFits le_rfl)

theorem metName_metOf {s : PartStore} (h : s.Ok) : metName s.metOf.tags = s.name := by
  have hfind : findTag FT_FILENAME s.baseTags = some (Tag.ofId FT_FILENAME (.str s.name)) := by
    simp [findTag, PartStore.baseTags, Tag.ofId]
  rw [metName, PartStore.metOf, findTag_append_gapTags h.length_gaps_le, hfind]
  rfl

theorem findTag_corrupted {s : PartStore} (h : s.Ok) : findTag FT_CORRUPTEDPARTS s.metOf.tags =
    if s.pf.corrupted = [] then none
    else some (Tag.ofId FT_CORRUPTEDPARTS (.str (CommaList.format s.pf.corrupted))) := by
  rw [PartStore.metOf, findTag_append_gapTags h.length_gaps_le]
  unfold findTag PartStore.baseTags
  split <;> split <;> simp [Tag.ofId, FT_FILENAME, FT_FILESIZE, FT_CORRUPTEDPARTS, FT_DLPRIORITY,
    FT_OLDDLPRIORITY, FT_STATUS]

theorem PartStore.Ok.corrupted_lt_pow {s : PartStore} (h : s.Ok) :
    ∀ p ∈ s.pf.corrupted, p < 2 ^ 64 := by
  intro p hp
  have hpart := h.corrupted_lt p hp
  have hsize := h.size_lt
  rw [PartFile.lt_dataPartCount] at hpart
  unfold PARTSIZE at hpart
  omega

theorem metCorrupted_metOf {s : PartStore} (h : s.Ok) :
    metCorrupted s.metOf.tags = s.pf.corrupted := by
  rw [metCorrupted, findTag_corrupted h]
  split
  · rename_i hnil
    rw [hnil]
    rfl
  · exact CommaList.parse_format h.corrupted_lt_pow

theorem metPriority_metOf {s : PartStore} (h : s.Ok) : metPriority s.metOf.tags = s.priority := by
  have hfind : (s.baseTags.find? fun t => t.name = .id FT_DLPRIORITY ∨ t.name = .id FT_OLDDLPRIORITY)
      = some (Tag.ofId FT_DLPRIORITY (.u32 s.priority.toUInt32)) := by
    unfold PartStore.baseTags
    split <;> simp [Tag.ofId, FT_FILENAME, FT_FILESIZE, FT_CORRUPTEDPARTS, FT_DLPRIORITY,
      FT_OLDDLPRIORITY]
  rw [metPriority, PartStore.metOf,
    find_append_gapTags h.length_gaps_le _ (fun t b hb => by simp [hb]), hfind]
  rcases h.priority with hp | hp | hp <;> rw [hp] <;> rfl

theorem metPaused_metOf {s : PartStore} (h : s.Ok) : metPaused s.metOf.tags = s.paused := by
  have hfind : findTag FT_STATUS s.baseTags =
      if s.paused then some (Tag.ofId FT_STATUS (.u32 1)) else none := by
    unfold findTag PartStore.baseTags
    split <;> split <;> simp [Tag.ofId, FT_FILENAME, FT_FILESIZE, FT_CORRUPTEDPARTS, FT_DLPRIORITY,
      FT_OLDDLPRIORITY, FT_STATUS]
  rw [metPaused, PartStore.metOf, findTag_append_gapTags h.length_gaps_le, hfind]
  cases s.paused <;> rfl

theorem gaps_metOf {s : PartStore} (h : s.GapsOk) : gaps s.metOf = s.pf.gaps :=
  gaps_gapTags (baseTags_ids s) h.pf.tidy.sorted h.length_gaps_le h.gaps_fit rfl

/-- Decoding inverts encoding, before any cut. -/
theorem ofPartMet_metOf {s : PartStore} (h : s.Ok) : ofPartMet s.metOf = .ok s := by
  have hgaps : PartFile.normalizeGaps s.pf.size s.pf.gaps = s.pf.gaps :=
    PartFile.normalizeGaps_of_tidy h.pf.tidy h.pf.stop_le
  simp only [ofPartMet, metSize_metOf h, metName_metOf h, metCorrupted_metOf h,
    metPriority_metOf h, metPaused_metOf h, gaps_metOf h.toGapsOk, PartFile.resume,
    PartFile.normalize, hgaps]
  rfl

/-! ## What a save reads back as -/

/-- The part.met that comes back from a save. -/
def PartStore.savedMet (s : PartStore) : PartMet :=
  { s.metOf with tags := (s.metOf.tags.take (tagCount s % 2 ^ 32)).map Tag.capped }

theorem capped_writable {s : PartStore} (h : s.Ok) : ∀ t ∈ s.metOf.tags, t.capped.Writable := by
  intro t ht
  rcases List.mem_append.mp ht with ht | ht
  · obtain ⟨id, v, rfl, hv⟩ := mem_baseTags ht
    refine ⟨trivial, ?_⟩
    show v.capped.Writable
    rcases hv with rfl | rfl | hv
    · exact List.length_take_le ..
    · exact List.length_take_le ..
    · rwa [TagValue.capped_of_writable hv]
  · have hw := (gapTags_writable h.length_gaps_le s.large t ht).2
    rwa [Tag.capped_of_writable hw]

theorem readPartMet_metOf {s : PartStore} (h : s.Ok) (hp : s.pf.partHashes.length ≤ 65535) :
    readPartMet (writePartMet s.metOf) = .ok s.savedMet := by
  have hv : s.metOf.version = PARTFILE_VERSION ∨ s.metOf.version = PARTFILE_VERSION_LARGEFILE := by
    show (if s.large then _ else _) = _ ∨ (if s.large then _ else _) = _
    cases s.large
    · exact Or.inl rfl
    · exact Or.inr rfl
  rw [readPartMet_writePartMet_capped hv hp (capped_writable h) (Or.inl rfl), length_metOf_tags]
  rfl

/-- Nothing is cut: the name and the text fit their strings, the tags their count. -/
theorem savedMet_of_fits {s : PartStore} (h : s.Ok) (hname : s.name.length ≤ 65535)
    (htext : corruptedTextLength s.pf.corrupted ≤ 65535) (hcount : tagCount s < 2 ^ 32) :
    s.savedMet = s.metOf := by
  have hcap : ∀ t ∈ s.metOf.tags, t.capped = t := by
    intro t ht
    rcases List.mem_append.mp ht with ht | ht
    · obtain ⟨id, v, rfl, hv⟩ := mem_baseTags ht
      refine congrArg (Tag.ofId id) (TagValue.capped_of_writable ?_)
      rcases hv with rfl | rfl | hv
      · exact hname
      · exact (CommaList.length_format _).trans_le htext
      · exact hv
    · exact Tag.capped_of_writable (gapTags_writable h.length_gaps_le s.large t ht).2
  rw [PartStore.savedMet, Nat.mod_eq_of_lt hcount, ← length_metOf_tags, List.take_length,
    List.map_congr_left hcap, List.map_id']

theorem ofPartMet_ok {met : PartMet} {s : PartStore} (h : ofPartMet met = .ok s) :
    s.pf.corrupted = metCorrupted met.tags ∧
      s.pf.gaps = PartFile.normalizeGaps s.pf.size (gaps met) := by
  unfold ofPartMet at h
  split at h
  · cases h
  · cases h
    exact ⟨rfl, rfl⟩

/-- A corrupted text cut short parses to another list. -/
theorem ofPartMet_ne_of_text {s : PartStore} (h : s.Ok)
    (htext : 65535 < corruptedTextLength s.pf.corrupted) (hcount : tagCount s < 2 ^ 32) :
    ofPartMet s.savedMet ≠ .ok s := by
  intro heq
  have hcorrupted := (ofPartMet_ok heq).1
  have htext : 65535 < (CommaList.format s.pf.corrupted).length := by
    rwa [CommaList.length_format]
  have hne : s.pf.corrupted ≠ [] := by
    intro hnil
    rw [hnil] at htext
    exact absurd htext (by decide)
  have hfull : s.savedMet.tags = s.metOf.tags.map Tag.capped := by
    rw [PartStore.savedMet, Nat.mod_eq_of_lt hcount, ← length_metOf_tags, List.take_length]
  rw [hfull, metCorrupted, findTag_map_capped, findTag_corrupted h, if_neg hne] at hcorrupted
  exact CommaList.parse_take_ne h.corrupted_lt_pow htext hcorrupted.symm

/-- A tag count that wraps cuts off gap tags, and fewer gaps come back. -/
theorem ofPartMet_ne_of_count {s : PartStore} (h : s.Ok) (hcount : 2 ^ 32 ≤ tagCount s) :
    ofPartMet s.savedMet ≠ .ok s := by
  intro heq
  have hgaps := (ofPartMet_ok heq).2
  have hne : s.pf.gaps ≠ [] := by
    intro hnil
    rw [tagCount, hnil, List.length_nil] at hcount
    split at hcount <;> split at hcount <;> omega
  -- cutting does not touch the gap tags themselves
  have hcap : (gapTags s.pf.gaps s.large).map Tag.capped = gapTags s.pf.gaps s.large := by
    rw [List.map_congr_left fun t ht =>
      Tag.capped_of_writable (gapTags_writable h.length_gaps_le s.large t ht).2, List.map_id']
  have htags : s.savedMet.tags =
      (s.baseTags.map Tag.capped ++ gapTags s.pf.gaps s.large).take (tagCount s % 2 ^ 32) := by
    rw [PartStore.savedMet, List.map_take, PartStore.metOf, List.map_append, hcap]
  have hids : ∀ t ∈ s.baseTags.map Tag.capped, ∃ id, t.name = .id id := by
    intro t ht
    obtain ⟨u, hu, rfl⟩ := List.mem_map.mp ht
    exact baseTags_ids s u hu
  have hlt : tagCount s % 2 ^ 32 <
      (s.baseTags.map Tag.capped ++ gapTags s.pf.gaps s.large).length := by
    have hlen := length_metOf_tags s
    rw [PartStore.metOf, List.length_append] at hlen
    rw [List.length_append, List.length_map, hlen]
    omega
  have hfewer := length_gaps_take_lt hids hne h.length_gaps_le h.gaps_fit hlt htags
  have hle := PartFile.length_normalizeGaps_le s.pf.size (gaps s.savedMet)
  rw [← hgaps] at hle
  omega

theorem live_saveMet (s : PartStore) (d : MetDir) :
    (saveMet s d).live = some (writePartMet s.metOf) := by
  unfold saveMet saveOps
  simp only [List.foldl_cons, List.foldl_nil, MetOp.apply]
  split <;> rfl

/-- Opening right after a save decodes what the save reads back as. -/
theorem openStore_saveMet {s : PartStore} (h : s.Ok) (hp : s.pf.partHashes.length ≤ 65535)
    (d : MetDir) (file : Bytes) :
    openStore (saveMet s d) (some file) = ofPartMet s.savedMet := by
  have hselect : selectMet (saveMet s d) = .ok s.savedMet := by
    rw [selectMet, live_saveMet, Option.bind_some, readPartMet_metOf h hp]
    rfl
  unfold openStore
  rw [hselect]
  show (ofPartMet s.savedMet >>= fun s => pure s) = _
  exact bind_pure _

/-- Save, then open: the same store comes back exactly when the corrupted-part text
    fits its string and the tags fit their count. -/
theorem open_saveMet_iff {md4 : Bytes → Hash16} {s : PartStore} {file : Bytes}
    (h : Reachable md4 s file) (hname : s.name.length ≤ 65535)
    (hp : s.pf.partHashes.length ≤ 65535) (d : MetDir) :
    openStore (saveMet s d) (some file) = .ok s ↔
      corruptedTextLength s.pf.corrupted ≤ 65535 ∧ tagCount s < 2 ^ 32 := by
  rw [openStore_saveMet h.ok hp]
  constructor
  · intro heq
    by_contra hnot
    rcases Nat.lt_or_ge (tagCount s) (2 ^ 32) with hcount | hcount
    · exact ofPartMet_ne_of_text h.ok (by omega) hcount heq
    · exact ofPartMet_ne_of_count h.ok hcount heq
  · rintro ⟨htext, hcount⟩
    rw [savedMet_of_fits h.ok hname htext hcount]
    exact ofPartMet_metOf h.ok

/-- A new 500-byte download. -/
def freshStore : PartStore := PartStore.create (Digest.fill 16 0xAB) 500 [0x61]

theorem freshStore_resumes :
    openStore (saveMet freshStore ⟨none, none, none⟩) (some (List.replicate 500 0)) =
      .ok freshStore :=
  have hreach : Reachable (fun _ => Digest.fill 16 0) freshStore (List.replicate 500 0) :=
    Reachable.create (Digest.fill 16 0xAB) 500 [0x61]
  (open_saveMet_iff hreach (by decide) (by decide) ⟨none, none, none⟩).mpr
    ⟨by decide, by decide⟩

/-- A download of 21000 parts with parts 10000, 10001, … marked corrupt, `n` of them. -/
def markedStore : Nat → PartStore
  | 0 => PartStore.create (Digest.fill 16 0xAB) 204288000000 [0x61]
  | n + 1 => { markedStore n with pf := (markedStore n).pf.markCorrupt (10000 + n) }

theorem size_markedStore (n : Nat) : (markedStore n).pf.size = 204288000000 := by
  induction n with
  | zero => rfl
  | succ n ih => rw [markedStore, PartFile.size_markCorrupt, ih]

theorem reachable_markedStore (md4 : Bytes → Hash16) {n : Nat} (hn : n ≤ 11000) :
    Reachable md4 (markedStore n) (List.replicate (204288000000 : UInt64).toNat 0) := by
  induction n with
  | zero => exact Reachable.create _ _ _
  | succ n ih =>
    have hvalid : 10000 + n < dataPartCount (markedStore n).pf.size := by
      rw [PartFile.lt_dataPartCount, size_markedStore]
      unfold PARTSIZE
      omega
    exact Reachable.step (.markCorrupt (10000 + n)) (ih (by omega)) hvalid

theorem corrupted_markedStore (n : Nat) :
    (markedStore n).pf.corrupted = (List.range n).map (10000 + ·) := by
  induction n with
  | zero => rfl
  | succ n ih =>
    have hnew : 10000 + n ∉ (markedStore n).pf.corrupted := by
      rw [ih]
      simp
    rw [markedStore, corrupted_markCorrupt, if_neg hnew, ih, List.range_succ, List.map_append]
    rfl

theorem corruptedTextLength_markedStore (n : Nat) :
    5 * n + (n - 1) ≤ corruptedTextLength (markedStore n).pf.corrupted := by
  have hdigits : n * 5 ≤ (((List.range n).map (10000 + ·)).map fun p => (toDecimal p).length).sum := by
    have h := List.card_nsmul_le_sum
      (((List.range n).map (10000 + ·)).map fun p => (toDecimal p).length) 5 (by
        intro k hk
        obtain ⟨p, hp, rfl⟩ := List.mem_map.mp hk
        obtain ⟨i, -, rfl⟩ := List.mem_map.mp hp
        exact lt_length_toDecimal (k := 4) (by omega))
    simpa using h
  rw [corrupted_markedStore, corruptedTextLength, List.length_map, List.length_range]
  omega

theorem resume_loses_corrupted_parts :
    ¬ ∀ (md4 : Bytes → Hash16) (s : PartStore) (file : Bytes), Reachable md4 s file →
      s.name.length ≤ 65535 → s.pf.partHashes.length ≤ 65535 → ∀ d,
      openStore (saveMet s d) (some file) = .ok s := by
  intro h
  have hreach := reachable_markedStore (fun _ => Digest.fill 16 0) (le_refl 11000)
  have hlen := corruptedTextLength_markedStore 11000
  have hname : ∀ n, (markedStore n).name = [0x61] := by
    intro n
    induction n with
    | zero => rfl
    | succ n ih => exact ih
  have hhashes : ∀ n, (markedStore n).pf.partHashes = [] := by
    intro n
    induction n with
    | zero => rfl
    | succ n ih => rw [markedStore, PartFile.partHashes_markCorrupt, ih]
  have hopen := h _ _ _ hreach (by rw [hname]; decide) (by rw [hhashes]; decide) ⟨none, none, none⟩
  rw [openStore_saveMet hreach.ok (by rw [hhashes]; decide)] at hopen
  rcases Nat.lt_or_ge (tagCount (markedStore 11000)) (2 ^ 32) with hcount | hcount
  · exact ofPartMet_ne_of_text hreach.ok (by omega) hcount hopen
  · exact ofPartMet_ne_of_count hreach.ok hcount hopen

end PadMule.Engine
