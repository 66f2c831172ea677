import PadMule.Files.PartMet
import PadMule.Lib.Decimal
import PadMule.Lib.SortedMap

/-
  `mule-files/src/part_met.rs`: the gap list as tags.

  Each gap is two tags whose string name is a kind byte followed by the gap's decimal
  index. The reader pairs starts and ends by that index, in ordered maps, and sorts
  the result. `gaps_gapTags`: a list sorted by start comes back as the same list.
  `length_gaps_take_lt`: tags cut off before the end give back a shorter list.
-/

namespace PadMule.Files

open PadMule.Proto Spans Decimal

/-- A still-missing byte range, end exclusive. -/
abbrev Gap := Span Nat

def FT_GAPSTART : UInt8 := 0x09
def FT_GAPEND : UInt8 := 0x0A

/-- `tag_u64`: a gap tag's value. -/
def tagU64 : TagValue → Option Nat
  | .u32 x => some x.toNat
  | .u64 x => some x.toNat
  | _ => none

/-- `gap_key`: which end, and the decimal index behind the kind byte. -/
def gapKey : TagName → Option (UInt8 × Nat)
  | .id _ => none
  | .str bytes =>
    match bytes with
    | kind :: b :: bs =>
      if kind ≠ FT_GAPSTART ∧ kind ≠ FT_GAPEND then none
      else (parseUnsigned (2 ^ 64) (b :: bs)).map fun idx => (kind, idx)
    | _ => none

/-- Gap starts and gap ends by index. -/
abbrev GapMaps := List (Nat × Nat) × List (Nat × Nat)

def collectGap (m : GapMaps) (t : Tag) : GapMaps :=
  match gapKey t.name, tagU64 t.value with
  | some (kind, idx), some val =>
    if kind = FT_GAPSTART then (SortedMap.insert idx val m.1, m.2)
    else (m.1, SortedMap.insert idx val m.2)
  | _, _ => m

/-- The starts that have an end. -/
def pairGaps (m : GapMaps) : List Gap :=
  m.1.filterMap fun s => (m.2.lookup s.1).map fun stop => ⟨s.2, stop⟩

/-- `gaps`: the missing ranges a part.met's tags list. -/
def gaps (pm : PartMet) : List Gap :=
  sortByStart (pairGaps (pm.tags.foldl collectGap ([], [])))

/-- 64-bit values for a large file, else 32-bit. -/
def gapValue (large : Bool) (v : Nat) : TagValue :=
  if large then .u64 (UInt64.ofNat v) else .u32 (UInt32.ofNat v)

def gapTag (kind : UInt8) (large : Bool) (idx v : Nat) : Tag :=
  ⟨.str (kind :: toDecimal idx), gapValue large v⟩

/-- The two tags of gap number `g.2`. -/
def gapPair (large : Bool) (g : Gap × Nat) : List Tag :=
  [gapTag FT_GAPSTART large g.2 g.1.start, gapTag FT_GAPEND large g.2 g.1.stop]

/-- `gap_tags`: indices 0, 1, … in list order. -/
def gapTags (gaps : List Gap) (large : Bool) : List Tag :=
  gaps.zipIdx.flatMap (gapPair large)

/-! ## Reading one gap tag -/

/-- A value that its encoding can hold. -/
def GapFits (large : Bool) (v : Nat) : Prop := v < if large then 2 ^ 64 else 2 ^ 32

theorem tagU64_gapValue {large : Bool} {v : Nat} (h : GapFits large v) :
    tagU64 (gapValue large v) = some v := by
  unfold GapFits at h
  unfold gapValue
  cases large with
  | true => exact congrArg some (UInt64.toNat_ofNat_of_lt' h)
  | false => exact congrArg some (UInt32.toNat_ofNat_of_lt' h)

theorem gapKey_gapTag {kind : UInt8} (hk : kind = FT_GAPSTART ∨ kind = FT_GAPEND) {idx : Nat}
    (hi : idx < 2 ^ 64) : gapKey (.str (kind :: toDecimal idx)) = some (kind, idx) := by
  have hparse := parseUnsigned_toDecimal hi
  cases hd : toDecimal idx with
  | nil => exact absurd hd (toDecimal_ne_nil idx)
  | cons b bs =>
    rw [hd] at hparse
    have hkind : ¬ (kind ≠ FT_GAPSTART ∧ kind ≠ FT_GAPEND) := by tauto
    simp only [gapKey, if_neg hkind, hparse, Option.map_some]

theorem collectGap_start (m : GapMaps) {large : Bool} {idx v : Nat} (hi : idx < 2 ^ 64)
    (hv : GapFits large v) :
    collectGap m (gapTag FT_GAPSTART large idx v) = (SortedMap.insert idx v m.1, m.2) := by
  simp only [collectGap, gapTag, gapKey_gapTag (Or.inl rfl) hi, tagU64_gapValue hv]
  rfl

theorem collectGap_stop (m : GapMaps) {large : Bool} {idx v : Nat} (hi : idx < 2 ^ 64)
    (hv : GapFits large v) :
    collectGap m (gapTag FT_GAPEND large idx v) = (m.1, SortedMap.insert idx v m.2) := by
  simp only [collectGap, gapTag, gapKey_gapTag (Or.inr rfl) hi, tagU64_gapValue hv]
  rfl

/-- A numeric-id tag is no gap tag. -/
theorem collectGap_of_id (m : GapMaps) {t : Tag} {id : UInt8} (h : t.name = .id id) :
    collectGap m t = m := by
  simp only [collectGap, h, gapKey]

theorem foldl_collectGap_of_ids {ts : List Tag} (h : ∀ t ∈ ts, ∃ id, t.name = .id id)
    (m : GapMaps) : ts.foldl collectGap m = m := by
  induction ts with
  | nil => rfl
  | cons t ts ih =>
    obtain ⟨⟨id, hid⟩, hts⟩ := List.forall_mem_cons.mp h
    rw [List.foldl_cons, collectGap_of_id m hid, ih hts]

/-! ## Reading a whole gap list -/

/-- The maps a list of indexed gaps fills. -/
def startEntries (gs : List (Gap × Nat)) : List (Nat × Nat) := gs.map fun g => (g.2, g.1.start)

def stopEntries (gs : List (Gap × Nat)) : List (Nat × Nat) := gs.map fun g => (g.2, g.1.stop)

/-- After the first `k` gap tags: one start for every tag pair begun, one end for
    every pair finished. -/
theorem foldl_collectGap_take {gs : List Gap} {large : Bool} {i : Nat}
    (hi : i + gs.length ≤ 2 ^ 64) (hv : ∀ g ∈ gs, GapFits large g.start ∧ GapFits large g.stop)
    (k : Nat) (m : GapMaps) (hm : (∀ e ∈ m.1, e.1 < i) ∧ ∀ e ∈ m.2, e.1 < i) :
    (((gs.zipIdx i).flatMap (gapPair large)).take k).foldl collectGap m =
      (m.1 ++ startEntries ((gs.take ((k + 1) / 2)).zipIdx i),
        m.2 ++ stopEntries ((gs.take (k / 2)).zipIdx i)) := by
  induction gs generalizing i k m with
  | nil => simp [startEntries, stopEntries]
  | cons g gs ih =>
    obtain ⟨⟨hs, he⟩, hgs⟩ := List.forall_mem_cons.mp hv
    rw [List.length_cons] at hi
    have hlt : i < 2 ^ 64 := by omega
    have hnext : ∀ {l : List (Nat × Nat)} {v : Nat}, (∀ e ∈ l, e.1 < i) →
        ∀ e ∈ l ++ [(i, v)], e.1 < i + 1 := by
      intro l v hl e he
      rcases List.mem_append.mp he with h | h
      · exact Nat.lt_succ_of_lt (hl e h)
      · rw [List.mem_singleton.mp h]
        exact Nat.lt_succ_self i
    rw [List.zipIdx_cons, List.flatMap_cons]
    simp only [gapPair, List.cons_append, List.nil_append]
    match k with
    | 0 => simp [startEntries, stopEntries]
    | 1 =>
      rw [List.take_succ_cons, List.take_zero, List.foldl_cons, List.foldl_nil,
        collectGap_start _ hlt hs, SortedMap.insert_of_forall_lt _ hm.1]
      simp [startEntries, stopEntries]
    | k + 2 =>
      have hk₁ : (k + 2 + 1) / 2 = (k + 1) / 2 + 1 := by omega
      have hk₂ : (k + 2) / 2 = k / 2 + 1 := by omega
      rw [List.take_succ_cons, List.take_succ_cons, List.foldl_cons, List.foldl_cons,
        collectGap_start _ hlt hs, collectGap_stop _ hlt he,
        SortedMap.insert_of_forall_lt _ hm.1, SortedMap.insert_of_forall_lt _ hm.2,
        ih (by omega) hgs k _ ⟨hnext hm.1, hnext hm.2⟩, hk₁, hk₂]
      simp [startEntries, stopEntries]

theorem lookup_stopEntries {gs : List Gap} {i : Nat} {p : Gap × Nat} (hp : p ∈ gs.zipIdx i) :
    (stopEntries (gs.zipIdx i)).lookup p.2 = some p.1.stop := by
  induction gs generalizing i with
  | nil => simp at hp
  | cons g gs ih =>
    rw [List.zipIdx_cons] at hp ⊢
    rcases List.mem_cons.mp hp with rfl | hp
    · simp [stopEntries]
    · have hne : p.2 ≠ i := by
        have := List.le_snd_of_mem_zipIdx hp
        omega
      have hbeq : (p.2 == i) = false := by simpa using hne
      rw [stopEntries, List.map_cons, List.lookup_cons, hbeq]
      exact ih hp

/-- Pairing gives the gaps back; a start without an end is dropped. -/
theorem pairGaps_entries (gs : List Gap) (extra : List (Nat × Nat))
    (h : ∀ e ∈ extra, gs.length ≤ e.1) :
    pairGaps (startEntries gs.zipIdx ++ extra, stopEntries gs.zipIdx) = gs := by
  unfold pairGaps
  rw [List.filterMap_append]
  have hnone : extra.filterMap (fun s => ((stopEntries gs.zipIdx).lookup s.1).map
      fun stop => (⟨s.2, stop⟩ : Gap)) = [] := by
    refine List.filterMap_eq_nil_iff.mpr fun e he => ?_
    have hkeys : ∀ s ∈ stopEntries gs.zipIdx, s.1 ≠ e.1 := by
      intro s hs
      obtain ⟨p, hp, rfl⟩ := List.mem_map.mp hs
      have := List.snd_lt_of_mem_zipIdx hp
      have := h e he
      dsimp only
      omega
    rw [SortedMap.lookup_eq_none hkeys, Option.map_none]
  have hsome : (startEntries gs.zipIdx).filterMap (fun s => ((stopEntries gs.zipIdx).lookup s.1).map
      fun stop => (⟨s.2, stop⟩ : Gap)) = gs := by
    unfold startEntries
    rw [List.filterMap_map]
    have hcongr : ∀ p ∈ gs.zipIdx, ((fun s : Nat × Nat => ((stopEntries gs.zipIdx).lookup s.1).map
        fun stop => (⟨s.2, stop⟩ : Gap)) ∘ fun g => (g.2, g.1.start)) p = some p.1 := by
      intro p hp
      simp only [Function.comp, lookup_stopEntries hp, Option.map_some]
    rw [List.filterMap_congr hcongr, List.filterMap_eq_map']
    exact List.zipIdx_map_fst ..
  rw [hsome, hnone, List.append_nil]

/-- The first `k` gap tags give back the gaps whose two tags are both among them. -/
theorem pairGaps_take_gapTags {gs : List Gap} {large : Bool} (hlen : gs.length ≤ 2 ^ 64)
    (hv : ∀ g ∈ gs, GapFits large g.start ∧ GapFits large g.stop) (k : Nat) :
    pairGaps (((gapTags gs large).take k).foldl collectGap ([], [])) = gs.take (k / 2) := by
  have hfold := foldl_collectGap_take (i := 0) (by omega) hv k ([], []) (by simp)
  -- at most one start is without its end
  have hsplit : gs.take ((k + 1) / 2) =
      gs.take (k / 2) ++ (gs.take ((k + 1) / 2)).drop (k / 2) := by
    conv_lhs => rw [← List.take_append_drop (k / 2) (gs.take ((k + 1) / 2))]
    rw [List.take_take, Nat.min_eq_left (by omega)]
  have hpair := pairGaps_entries (gs.take (k / 2))
    (startEntries (((gs.take ((k + 1) / 2)).drop (k / 2)).zipIdx (gs.take (k / 2)).length)) (by
      intro e he
      obtain ⟨p, hp, rfl⟩ := List.mem_map.mp he
      exact List.le_snd_of_mem_zipIdx hp)
  rw [gapTags, hfold, List.nil_append, List.nil_append, hsplit, List.zipIdx_append, startEntries,
    List.map_append, Nat.zero_add]
  exact hpair

/-! ## Gaps of a whole tag list -/

/-- Tags cut off after the first `k` gap tags, behind tags with numeric ids. -/
theorem gaps_append_take {base : List Tag} (hb : ∀ t ∈ base, ∃ id, t.name = .id id)
    {gs : List Gap} {large : Bool} (hlen : gs.length ≤ 2 ^ 64)
    (hv : ∀ g ∈ gs, GapFits large g.start ∧ GapFits large g.stop) (k : Nat) {pm : PartMet}
    (hpm : pm.tags = base ++ (gapTags gs large).take k) :
    gaps pm = sortByStart (gs.take (k / 2)) := by
  rw [gaps, hpm, List.foldl_append, foldl_collectGap_of_ids hb, pairGaps_take_gapTags hlen hv]

theorem length_gapTags (gs : List Gap) (large : Bool) :
    (gapTags gs large).length = 2 * gs.length := by
  simp [gapTags, gapPair, List.length_flatMap, Nat.mul_comm]

/-- A list sorted by start comes back as the same list. -/
theorem gaps_gapTags {base : List Tag} (hb : ∀ t ∈ base, ∃ id, t.name = .id id)
    {gs : List Gap} (hs : gs.Pairwise fun a b => a.start ≤ b.start) {large : Bool}
    (hlen : gs.length ≤ 2 ^ 64) (hv : ∀ g ∈ gs, GapFits large g.start ∧ GapFits large g.stop)
    {pm : PartMet} (hpm : pm.tags = base ++ gapTags gs large) : gaps pm = gs := by
  have htake : gapTags gs large = (gapTags gs large).take (2 * gs.length) := by
    rw [← length_gapTags gs large, List.take_length]
  rw [htake] at hpm
  rw [gaps_append_take hb hlen hv _ hpm, Nat.mul_div_cancel_left _ (by decide), List.take_length,
    sortByStart_of_sorted hs]

/-- A tag list cut off before its end gives back fewer gaps. -/
theorem length_gaps_take_lt {base : List Tag} (hb : ∀ t ∈ base, ∃ id, t.name = .id id)
    {gs : List Gap} (hne : gs ≠ []) {large : Bool} (hlen : gs.length ≤ 2 ^ 64)
    (hv : ∀ g ∈ gs, GapFits large g.start ∧ GapFits large g.stop) {m : Nat}
    (hm : m < (base ++ gapTags gs large).length) {pm : PartMet}
    (hpm : pm.tags = (base ++ gapTags gs large).take m) : (gaps pm).length < gs.length := by
  rw [List.take_append] at hpm
  rw [gaps_append_take (fun t ht => hb t (List.mem_of_mem_take ht)) hlen hv _ hpm,
    (perm_sortByStart _).length_eq, List.length_take]
  rw [List.length_append, length_gapTags] at hm
  have hpos := List.length_pos_of_ne_nil hne
  omega

end PadMule.Files
