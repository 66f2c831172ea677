import PadMule.Engine.Catalog
import Mathlib.Tactic

/-
  `mule-engine/src/catalog.rs`: the catalog does not depend on the order its results come in.

  The hits of a hash are added up field by field, and two additions may be swapped in every field
  but the media ones, where the first value stays. So the groups of a permuted list are the same up
  to those fields, and the ranking, which does not read them, puts the same rows in the same order
  (`catalog_order_free`).
-/

namespace PadMule.Engine.Catalog

open PadMule.Proto LibraryAgrees

/-- A result with the bits of its channel. -/
abbrev OriginHit := SearchResultFile × UInt8

def ofHits (hits : List OriginHit) : List RankedFile :=
  catalogWithOrigins (hits.map Prod.fst) (hits.map Prod.snd)

/-! ## The groups -/

def groupsOf (hits : List OriginHit) : List (Hash16 × Group) :=
  SortedMap.gather (fun hit => hit.1.hash) {} (fun g hit => g.add hit.2 hit.1) hits

theorem foldl_addHit_eq (hits : List OriginHit) :
    (hits.map Prod.fst).zipIdx.foldl (addHit (hits.map Prod.snd)) [] = groupsOf hits := by
  have hzip : (hits.map Prod.fst).zipIdx = hits.zipIdx.map fun e => (e.1.1, e.2) := by
    rw [List.zipIdx_map]
    rfl
  have hfst : hits.zipIdx.map Prod.fst = hits := List.zipIdx_map_fst 0 hits
  rw [hzip, List.foldl_map]
  unfold groupsOf SortedMap.gather
  nth_rewrite 3 [← hfst]
  rw [List.foldl_map]
  refine List.foldl_ext _ _ _ fun groups e he => ?_
  have hget : hits[e.2]? = some e.1 := List.mem_zipIdx_iff_getElem?.mp he
  rw [addHit, List.getElem?_map, hget]
  rfl

theorem ofHits_eq (hits : List OriginHit) :
    ofHits hits = ((groupsOf hits).map fun e => e.2.row e.1).mergeSort
      fun a b => compareRows a b ≠ .gt := by
  rw [ofHits, catalogWithOrigins, foldl_addHit_eq]

/-! ## What does not depend on the order -/

/-- All but the media fields, where the first value that is not empty stays. -/
def Group.withoutMedia (g : Group) : Group :=
  { g with artist := "", album := "", title := "", length := 0, bitrate := 0, codec := "" }

def RankedFile.withoutMedia (f : RankedFile) : RankedFile :=
  { f with artist := "", album := "", title := "", lengthSecs := 0, bitrate := 0, codec := "" }

def Group.addPlain (g : Group) (hit : OriginHit) : Group := (g.add hit.2 hit.1).withoutMedia

theorem withoutMedia_add (g : Group) (hit : OriginHit) :
    (g.add hit.2 hit.1).withoutMedia = g.withoutMedia.addPlain hit := rfl

theorem vote_comm {κ : Type} [LinearOrder κ] (k k' : κ) (counts : List (κ × Nat)) :
    vote k (vote k' counts) = vote k' (vote k counts) :=
  SortedMap.alter_swap (fun _ _ => rfl) counts

/-- The votes after a hit that may have none to give, or one that does not count. -/
def voted {κ : Type} [LinearOrder κ] (p : κ → Prop) [DecidablePred p] (o : Option κ)
    (counts : List (κ × Nat)) : List (κ × Nat) :=
  match o with
  | some k => if p k then vote k counts else counts
  | none => counts

theorem voted_comm {κ : Type} [LinearOrder κ] (p : κ → Prop) [DecidablePred p] (a b : Option κ)
    (counts : List (κ × Nat)) : voted p b (voted p a counts) = voted p a (voted p b counts) := by
  cases a with
  | none => rfl
  | some a =>
    cases b with
    | none => rfl
    | some b =>
      simp only [voted]
      split_ifs
      · exact vote_comm b a counts
      all_goals rfl

theorem max_right_comm (a b c : UInt32) : max (max a b) c = max (max a c) b := by
  rw [← UInt32.toNat_inj]
  have hmax (a b : UInt32) : (max a b).toNat = max a.toNat b.toNat := by
    rw [UInt32.max_def]
    split_ifs with hle <;> rw [UInt32.le_iff_toNat_le] at hle <;> omega
  rw [hmax, hmax, hmax, hmax, Nat.max_right_comm]

theorem or_right_comm (a b c : UInt8) : a ||| b ||| c = a ||| c ||| b := by
  rw [UInt8.or_assoc, UInt8.or_comm b c, UInt8.or_assoc]

theorem sizes_addPlain (g : Group) (hit : OriginHit) :
    (g.addPlain hit).sizes = voted (0 < ·) (tagU64 hit.1.tags FT_FILESIZE) g.sizes := by
  simp only [Group.addPlain, Group.withoutMedia, Group.add, voted]
  cases tagU64 hit.1.tags FT_FILESIZE <;> rfl

theorem names_addPlain (g : Group) (hit : OriginHit) :
    (g.addPlain hit).names = voted (fun _ => True) (tagString hit.1.tags FT_FILENAME) g.names := by
  simp only [Group.addPlain, Group.withoutMedia, Group.add, voted]
  cases tagString hit.1.tags FT_FILENAME <;> rfl

theorem types_addPlain (g : Group) (hit : OriginHit) :
    (g.addPlain hit).types = voted (· ≠ "") (tagString hit.1.tags FT_FILETYPE) g.types := by
  simp only [Group.addPlain, Group.withoutMedia, Group.add, voted]
  cases tagString hit.1.tags FT_FILETYPE <;> rfl

/-- Two additions may be swapped: the fields are votes, bits, maxima and sums. -/
theorem addPlain_comm (g : Group) (x y : OriginHit) :
    (g.addPlain x).addPlain y = (g.addPlain y).addPlain x := by
  have horigins := or_right_comm g.origins x.2 y.2
  have hsizes : ((g.addPlain x).addPlain y).sizes = ((g.addPlain y).addPlain x).sizes := by
    simp only [sizes_addPlain]
    exact voted_comm _ _ _ _
  have hnames : ((g.addPlain x).addPlain y).names = ((g.addPlain y).addPlain x).names := by
    simp only [names_addPlain]
    exact voted_comm _ _ _ _
  have htypes : ((g.addPlain x).addPlain y).types = ((g.addPlain y).addPlain x).types := by
    simp only [types_addPlain]
    exact voted_comm _ _ _ _
  simp only [Group.addPlain, Group.withoutMedia, Group.add, Group.mk.injEq, true_and]
  refine ⟨horigins, hsizes, hnames, max_right_comm _ _ _, max_right_comm _ _ _, htypes, ?_, ?_⟩
  · exact Nat.add_right_comm _ _ _
  · split_ifs <;> rfl

/-- The groups of a permuted list are the same but for the media fields. -/
theorem groupsOf_perm {hits hits' : List OriginHit} (h : hits.Perm hits') :
    (groupsOf hits).map (Prod.map id Group.withoutMedia) =
      (groupsOf hits').map (Prod.map id Group.withoutMedia) := by
  rw [groupsOf, groupsOf, SortedMap.map_gather Group.withoutMedia withoutMedia_add,
    SortedMap.map_gather Group.withoutMedia withoutMedia_add,
    SortedMap.gather_perm addPlain_comm h]

/-- The ranking does not read the media fields. -/
theorem map_withoutMedia_ofHits (hits : List OriginHit) :
    (ofHits hits).map RankedFile.withoutMedia =
      (((groupsOf hits).map (Prod.map id Group.withoutMedia)).map
        fun e => (e.2.row e.1).withoutMedia).mergeSort fun a b => compareRows a b ≠ .gt := by
  have hrank : ∀ a ∈ (groupsOf hits).map fun e => e.2.row e.1,
      ∀ b ∈ (groupsOf hits).map fun e => e.2.row e.1,
        decide (compareRows a b ≠ .gt) =
          decide (compareRows a.withoutMedia b.withoutMedia ≠ .gt) := fun _ _ _ _ => rfl
  rw [ofHits_eq, List.map_mergeSort (s := fun a b => decide (compareRows a b ≠ .gt)) hrank,
    List.map_map, List.map_map]
  rfl

/-! ## The ranking -/

/-- What the place of a row in the list means. -/
structure RankedBefore (a b : RankedFile) : Prop where
  trusted : b.isTrusted = true → a.isTrusted = true
  available : a.isTrusted = b.isTrusted → rankedSources b ≤ rankedSources a

theorem compareRows_eq : compareRows = compareLex (fun a b => compareOn RankedFile.isTrusted b a)
    (compareLex (fun a b => compareOn rankedSources b a) (compareOn RankedFile.name)) := rfl

instance : Std.TransCmp compareRows := by
  rw [compareRows_eq]
  infer_instance

theorem rankedBefore_of_le {a b : RankedFile} (h : (compareRows a b).isLE = true) :
    RankedBefore a b := by
  rw [compareRows, Ordering.isLE_then_iff_and] at h
  obtain ⟨htrust, hrest⟩ := h
  constructor
  · intro hb
    rw [hb] at htrust
    cases ha : a.isTrusted with
    | true => rfl
    | false =>
      rw [ha] at htrust
      cases htrust
  · intro heq
    have hsame : compare b.isTrusted a.isTrusted ≠ .lt := by
      rw [heq, Std.ReflOrd.compare_self]
      decide
    have hsources := (Ordering.isLE_then_iff_and.mp (hrest.resolve_left hsame)).1
    exact Std.isLE_compare.mp hsources

theorem pairwise_ofHits (hits : List OriginHit) : (ofHits hits).Pairwise RankedBefore := by
  have hle (a b : RankedFile) : decide (compareRows a b ≠ .gt) = (compareRows a b).isLE := by
    cases compareRows a b <;> rfl
  rw [ofHits_eq]
  refine (List.pairwise_mergeSort ?_ ?_ _).imp fun h => rankedBefore_of_le (hle _ _ ▸ h)
  · intro a b c hab hbc
    rw [hle] at hab hbc ⊢
    exact Std.TransCmp.isLE_trans hab hbc
  · intro a b
    have hswap : compareRows b a = (compareRows a b).swap := Std.OrientedCmp.eq_swap
    rw [hle, hle, hswap]
    cases compareRows a b <;> rfl

/-! ## One row for each file -/

theorem ofHits_perm (hits : List OriginHit) :
    (ofHits hits).Perm ((groupsOf hits).map fun e => e.2.row e.1) := by
  rw [ofHits_eq]
  exact List.mergeSort_perm _ _

theorem hashes_perm (hits : List OriginHit) :
    ((ofHits hits).map RankedFile.hash).Perm ((groupsOf hits).map Prod.fst) := by
  have h := (ofHits_perm hits).map RankedFile.hash
  rwa [List.map_map] at h

theorem origins_foldl (g : Group) (hits : List OriginHit) :
    (hits.foldl (fun g hit => g.add hit.2 hit.1) g).origins =
      hits.foldl (fun bits hit => bits ||| hit.2) g.origins := by
  induction hits generalizing g with
  | nil => rfl
  | cons hit hits ih => exact ih _

theorem origins_of_mem {hits : List OriginHit} {row : RankedFile} (h : row ∈ ofHits hits) :
    row.origins = (hits.filter fun hit => hit.1.hash = row.hash).foldl
      (fun bits hit => bits ||| hit.2) 0 := by
  obtain ⟨⟨hash, g⟩, hg, rfl⟩ := List.mem_map.mp ((ofHits_perm hits).mem_iff.mp h)
  -- the groups decide equality of hashes by their order
  have hsum : g = (hits.filter fun hit => hit.1.hash = hash).foldl
      (fun g hit => g.add hit.2 hit.1) {} :=
    (SortedMap.sum_of_mem_gather hg).trans
      (congrArg (List.foldl _ _) (List.filter_congr fun _ _ => decide_eq_decide.mpr Iff.rfl))
  exact (congrArg Group.origins hsum).trans (origins_foldl {} _)

/-- The catalog of a list of hits, against that of any other order of them. -/
structure OrderFree (hits : List OriginHit) : Prop where
  permuted : ∀ hits' : List OriginHit, hits.Perm hits' →
    (ofHits hits').map RankedFile.withoutMedia = (ofHits hits).map RankedFile.withoutMedia
  oneRow : ((ofHits hits).map RankedFile.hash).Nodup
  everyHash : ∀ hash, hash ∈ (ofHits hits).map RankedFile.hash ↔
    hash ∈ hits.map fun hit => hit.1.hash
  origins : ∀ row ∈ ofHits hits, row.origins =
    (hits.filter fun hit => hit.1.hash = row.hash).foldl (fun bits hit => bits ||| hit.2) 0
  ranked : (ofHits hits).Pairwise RankedBefore

theorem catalog_order_free (hits : List OriginHit) : OrderFree hits where
  permuted hits' h := by
    rw [map_withoutMedia_ofHits, map_withoutMedia_ofHits, groupsOf_perm h]
  oneRow := by
    refine (hashes_perm hits).nodup_iff.mpr ?_
    exact List.pairwise_map.mpr ((SortedMap.sorted_gather hits).imp ne_of_lt)
  everyHash hash := (hashes_perm hits).mem_iff.trans SortedMap.mem_keys_gather
  origins row h := origins_of_mem h
  ranked := pairwise_ofHits hits

end PadMule.Engine.Catalog
