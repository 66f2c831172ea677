import PadMule.Files.GapTags

/-
  `mule-engine/src/part_file.rs`: the gap list of one download.

  `PartFile` and its operations follow the source function by function. Above them,
  `GapOp.wanted` says what each operation means as a change of the set of missing
  bytes; `PartFile.run_refines` shows that every run of operations keeps the list
  tidy (`PartFile.Ok`) and covering exactly that set, and the byte accounting
  (`missing`, `contiguousPrefix`, `isPartComplete`) follows from it.
-/

namespace PadMule.Engine

open Spans Files

/-- `data_part_count`: number of parts that hold data, `ceil(size / PARTSIZE)`. -/
def dataPartCount (size : Nat) : Nat := (size + PARTSIZE - 1) / PARTSIZE

/-- `part_size`: short only for a ragged last part. -/
def partSize (part size : Nat) : Nat := min (size - part * PARTSIZE) PARTSIZE

structure PartFile where
  hash : Hash16
  size : Nat
  partHashes : List Hash16
  gaps : List Gap
  corrupted : List Nat
deriving DecidableEq

/-- The single gap of a file with nothing present; an empty file has none. -/
def wholeGap (size : Nat) : List Gap := if size = 0 then [] else [⟨0, size⟩]

namespace PartFile

/-- `PartFile::new`. -/
def new (hash : Hash16) (size : Nat) : PartFile :=
  { hash, size, partHashes := [], gaps := wholeGap size, corrupted := [] }

/-- Clamp to the file size; an inverted or outlying gap becomes empty. -/
def clampGap (size : Nat) (g : Gap) : Gap :=
  ⟨min g.start (min g.stop size), min g.stop size⟩

/-- The list `PartFile::normalize` leaves: clamp, drop the empty gaps, sort, merge. -/
def normalizeGaps (size : Nat) (gaps : List Gap) : List Gap :=
  merge (sortByStart ((gaps.map (clampGap size)).filter fun g => g.start < g.stop))

def normalize (pf : PartFile) : PartFile :=
  { pf with gaps := normalizeGaps pf.size pf.gaps }

/-- `PartFile::resume`. -/
def resume (hash : Hash16) (size : Nat) (gaps : List Gap) (corrupted : List Nat) : PartFile :=
  ({ hash, size, partHashes := [], gaps, corrupted } : PartFile).normalize

/-- Bytes still missing. -/
def missing (pf : PartFile) : Nat := (pf.gaps.map fun g => g.stop - g.start).sum

/-- Bytes available contiguously from offset 0. -/
def contiguousPrefix (pf : PartFile) : Nat := (pf.gaps.head?.map Span.start).getD pf.size

def isComplete (pf : PartFile) : Bool := pf.gaps.isEmpty

def isPartComplete (pf : PartFile) (part : Nat) : Bool :=
  let start := part * PARTSIZE
  let stop := start + partSize part pf.size
  !pf.gaps.any fun g => g.start < stop && start < g.stop

/-- `reset_all_gaps`: re-open the entire file. -/
def resetAllGaps (pf : PartFile) : PartFile :=
  { pf with gaps := wholeGap pf.size, corrupted := [] }

/-- `fill_gap`: mark `[start, stop)` as received. -/
def fillGap (pf : PartFile) (start stop : Nat) : PartFile :=
  if start ≥ stop then pf
  else ({ pf with gaps := pf.gaps.flatMap (cut start stop) } : PartFile).normalize

/-- `mark_corrupt`: re-open a whole part and remember that it went bad. -/
def markCorrupt (pf : PartFile) (part : Nat) : PartFile :=
  let start := part * PARTSIZE
  let stop := start + partSize part pf.size
  let pf := ({ pf with gaps := pf.gaps ++ [⟨start, stop⟩] } : PartFile).normalize
  if part ∈ pf.corrupted then pf else { pf with corrupted := pf.corrupted ++ [part] }

/-- `reopen_range`: re-open one byte range, refused past the end of the file. -/
def reopenRange (pf : PartFile) (start stop : Nat) : PartFile :=
  if start ≥ stop ∨ stop > pf.size then pf
  else ({ pf with gaps := pf.gaps ++ [⟨start, stop⟩] } : PartFile).normalize

/-- `clear_corrupt`: accept a verified part. -/
def clearCorrupt (pf : PartFile) (part : Nat) : PartFile :=
  { pf with corrupted := pf.corrupted.filter (· ≠ part) }

/-! ## Normalizing -/

theorem cover_map_clampGap (size : Nat) (gaps : List Gap) :
    cover (gaps.map (clampGap size)) = cover gaps ∩ Set.Iio size := by
  ext b
  simp only [mem_cover, List.mem_map, Set.mem_inter_iff, Set.mem_Iio]
  constructor
  · rintro ⟨-, ⟨g, hg, rfl⟩, h1, h2⟩
    dsimp only [clampGap] at h1 h2
    exact ⟨⟨g, hg, by omega⟩, by omega⟩
  · rintro ⟨⟨g, hg, h1, h2⟩, h⟩
    refine ⟨_, ⟨g, hg, rfl⟩, ?_⟩
    dsimp only [clampGap]
    omega

theorem cover_normalizeGaps (size : Nat) (gaps : List Gap) :
    cover (normalizeGaps size gaps) = cover gaps ∩ Set.Iio size := by
  unfold normalizeGaps
  rw [cover_merge (sorted_sortByStart _), cover_perm (perm_sortByStart _),
    cover_filter_nonempty, cover_map_clampGap]

theorem tidy_normalizeGaps (size : Nat) (gaps : List Gap) : Tidy (normalizeGaps size gaps) := by
  refine tidy_merge (sorted_sortByStart _) fun s hs => ?_
  have h := (perm_sortByStart _).mem_iff.mp hs
  simpa using (List.mem_filter.mp h).2

theorem length_normalizeGaps_le (size : Nat) (gaps : List Gap) :
    (normalizeGaps size gaps).length ≤ gaps.length := by
  unfold normalizeGaps
  refine (length_merge_le _).trans ?_
  rw [(perm_sortByStart _).length_eq]
  exact (List.length_filter_le ..).trans_eq (List.length_map ..)

/-- A list that is tidy and inside the file is left as it is. -/
theorem normalizeGaps_of_tidy {size : Nat} {gaps : List Gap} (h : Tidy gaps)
    (hle : ∀ g ∈ gaps, g.stop ≤ size) : normalizeGaps size gaps = gaps := by
  have hclamp : gaps.map (clampGap size) = gaps := by
    conv_rhs => rw [← List.map_id gaps]
    refine List.map_congr_left fun g hg => ?_
    have hne := h.nonempty g hg
    have hstop := hle g hg
    simp only [clampGap, Nat.min_eq_left hstop, Nat.min_eq_left hne.le, id]
  have hfilter : (gaps.filter fun g => g.start < g.stop) = gaps :=
    List.filter_eq_self.mpr fun g hg => by simpa using h.nonempty g hg
  unfold normalizeGaps
  rw [hclamp, hfilter, sortByStart_of_sorted h.sorted, merge_of_tidy h]

/-! ## The representation invariant -/

/-- The gap list of a well-formed `PartFile`: tidy and inside `[0, size)`. -/
structure Ok (pf : PartFile) : Prop where
  tidy : Tidy pf.gaps
  stop_le : ∀ g ∈ pf.gaps, g.stop ≤ pf.size

theorem ok_normalize (pf : PartFile) : pf.normalize.Ok where
  tidy := tidy_normalizeGaps _ _
  stop_le := by
    intro g hg
    have hne := (tidy_normalizeGaps pf.size pf.gaps).nonempty g hg
    have hlast : g.stop - 1 ∈ cover (normalizeGaps pf.size pf.gaps) := ⟨g, hg, by omega⟩
    rw [cover_normalizeGaps] at hlast
    have : g.stop - 1 < pf.size := hlast.2
    show g.stop ≤ pf.size
    omega

theorem tidy_wholeGap (size : Nat) : Tidy (wholeGap size) := by
  unfold wholeGap
  split
  · exact Tidy.nil
  · exact Tidy.singleton (Nat.pos_of_ne_zero ‹_›)

theorem cover_wholeGap (size : Nat) : cover (wholeGap size) = Set.Iio size := by
  ext b
  unfold wholeGap
  split
  · simp; omega
  · simp

theorem ok_of_wholeGap {pf : PartFile} (h : pf.gaps = wholeGap pf.size) : pf.Ok where
  tidy := h ▸ tidy_wholeGap _
  stop_le := by
    rw [h]
    unfold wholeGap
    split <;> simp

theorem Ok.cover_lt {pf : PartFile} (h : pf.Ok) : ∀ b ∈ cover pf.gaps, b < pf.size := by
  rintro b ⟨g, hg, -, hb⟩
  exact hb.trans_le (h.stop_le g hg)

/-! ## Byte accounting -/

/-- The bytes of part `part` in a file of `size` bytes. -/
def partBytes (part size : Nat) : Set Nat :=
  {b | part * PARTSIZE ≤ b ∧ b < (part + 1) * PARTSIZE ∧ b < size}

/-- The bytes below the size that no gap claims. -/
def presentBytes (pf : PartFile) : Finset Nat :=
  (Finset.range pf.size).filter (· ∉ cover pf.gaps)

theorem lt_dataPartCount {part size : Nat} :
    part < dataPartCount size ↔ part * PARTSIZE < size := by
  unfold dataPartCount PARTSIZE
  omega

theorem partBytes_eq_Ico {part size : Nat} :
    partBytes part size = Set.Ico (part * PARTSIZE) (part * PARTSIZE + partSize part size) := by
  ext b
  simp only [partBytes, partSize, Set.mem_ofPred_eq, Set.mem_Ico]
  unfold PARTSIZE
  omega

theorem missing_eq_total (pf : PartFile) : pf.missing = total pf.gaps := rfl

theorem Ok.card_missing {pf : PartFile} (h : pf.Ok) :
    ((Finset.range pf.size).filter (· ∈ cover pf.gaps)).card = pf.missing :=
  card_cover h.tidy h.stop_le

theorem Ok.missing_add_present {pf : PartFile} (h : pf.Ok) :
    pf.missing + pf.presentBytes.card = pf.size := by
  rw [← h.card_missing]
  unfold presentBytes
  rw [Finset.card_filter_add_card_filter_not, Finset.card_range]

theorem Ok.missing_le {pf : PartFile} (h : pf.Ok) : pf.missing ≤ pf.size := by
  have := h.missing_add_present
  omega

/-- `contiguous_prefix` is the longest prefix of the file with no missing byte. -/
theorem Ok.isGreatest_contiguousPrefix {pf : PartFile} (h : pf.Ok) :
    IsGreatest {n | n ≤ pf.size ∧ ∀ b < n, b ∉ cover pf.gaps} pf.contiguousPrefix := by
  unfold contiguousPrefix
  cases hg : pf.gaps with
  | nil =>
    simp only [List.head?_nil, Option.map_none, Option.getD_none, cover_nil]
    exact ⟨⟨le_rfl, fun b _ => Set.notMem_empty b⟩, fun n hn => hn.1⟩
  | cons g gs =>
    have hleast := (hg ▸ h.tidy).isLeast_head
    have hlt : g.start < pf.size := h.cover_lt _ (hg ▸ hleast.1)
    simp only [List.head?_cons, Option.map_some, Option.getD_some]
    refine ⟨⟨hlt.le, fun b hb hmem => ?_⟩, fun n hn => ?_⟩
    · exact absurd (hleast.2 hmem) (not_le.mpr hb)
    · exact not_lt.mp fun hlt => hn.2 _ hlt hleast.1

theorem Ok.isPartComplete_iff {pf : PartFile} (h : pf.Ok) {part : Nat}
    (hp : part < dataPartCount pf.size) :
    pf.isPartComplete part = true ↔ ∀ b ∈ partBytes part pf.size, b ∉ cover pf.gaps := by
  have hpos : part * PARTSIZE < part * PARTSIZE + partSize part pf.size := by
    have := lt_dataPartCount.mp hp
    unfold partSize PARTSIZE at *
    omega
  have hover := disjoint_iff_no_overlap h.tidy.nonempty _ _ hpos
  rw [partBytes_eq_Ico]
  simp only [isPartComplete, Bool.not_eq_true', List.any_eq_false, Bool.and_eq_true,
    decide_eq_true_eq]
  rw [← hover]
  exact ⟨fun hc b hb hm => hc b hm hb, fun hc b hm hb => hc b hb hm⟩

/-! ## What each operation does to the missing bytes -/

@[simp] theorem hash_fillGap (pf : PartFile) (a b : Nat) : (pf.fillGap a b).hash = pf.hash := by
  unfold fillGap; split <;> rfl

@[simp] theorem hash_markCorrupt (pf : PartFile) (p : Nat) : (pf.markCorrupt p).hash = pf.hash := by
  unfold markCorrupt; dsimp only; split <;> rfl

@[simp] theorem hash_reopenRange (pf : PartFile) (a b : Nat) :
    (pf.reopenRange a b).hash = pf.hash := by
  unfold reopenRange; split <;> rfl

@[simp] theorem size_normalize (pf : PartFile) : pf.normalize.size = pf.size := rfl

@[simp] theorem size_fillGap (pf : PartFile) (a b : Nat) : (pf.fillGap a b).size = pf.size := by
  unfold fillGap; split <;> rfl

@[simp] theorem size_markCorrupt (pf : PartFile) (p : Nat) : (pf.markCorrupt p).size = pf.size := by
  unfold markCorrupt; dsimp only; split <;> rfl

@[simp] theorem partHashes_markCorrupt (pf : PartFile) (p : Nat) :
    (pf.markCorrupt p).partHashes = pf.partHashes := by
  unfold markCorrupt; dsimp only; split <;> rfl

@[simp] theorem size_reopenRange (pf : PartFile) (a b : Nat) :
    (pf.reopenRange a b).size = pf.size := by
  unfold reopenRange; split <;> rfl

@[simp] theorem size_resetAllGaps (pf : PartFile) : pf.resetAllGaps.size = pf.size := rfl

theorem Ok.fillGap {pf : PartFile} (h : pf.Ok) (a b : Nat) : (pf.fillGap a b).Ok := by
  unfold PartFile.fillGap
  split
  · exact h
  · exact ok_normalize _

theorem Ok.reopenRange {pf : PartFile} (h : pf.Ok) (a b : Nat) : (pf.reopenRange a b).Ok := by
  unfold PartFile.reopenRange
  split
  · exact h
  · exact ok_normalize _

theorem ok_markCorrupt (pf : PartFile) (p : Nat) : (pf.markCorrupt p).Ok := by
  have hn := ok_normalize { pf with gaps := pf.gaps ++ [⟨p * PARTSIZE,
    p * PARTSIZE + partSize p pf.size⟩] }
  unfold markCorrupt
  dsimp only
  split
  · exact hn
  · exact ⟨hn.tidy, hn.stop_le⟩

theorem ok_resetAllGaps (pf : PartFile) : pf.resetAllGaps.Ok := ok_of_wholeGap rfl

theorem cover_fillGap {pf : PartFile} (h : pf.Ok) (a b : Nat) :
    cover (pf.fillGap a b).gaps = cover pf.gaps \ Set.Ico a b := by
  unfold fillGap
  split
  · rename_i hab
    rw [Set.Ico_eq_empty (by omega), Set.sdiff_empty]
  · show cover (normalizeGaps _ _) = _
    rw [cover_normalizeGaps, cover_flatMap_cut]
    -- the rest of the list was inside the file already
    exact Set.inter_eq_left.mpr fun x hx => h.cover_lt x hx.1

theorem cover_markCorrupt {pf : PartFile} (h : pf.Ok) (p : Nat) :
    cover (pf.markCorrupt p).gaps = cover pf.gaps ∪ partBytes p pf.size := by
  have hgaps : (pf.markCorrupt p).gaps = normalizeGaps pf.size (pf.gaps ++
      [⟨p * PARTSIZE, p * PARTSIZE + partSize p pf.size⟩]) := by
    unfold markCorrupt; dsimp only; split <;> rfl
  rw [hgaps, cover_normalizeGaps, cover_append, cover_cons, cover_nil, Set.union_empty,
    ← partBytes_eq_Ico]
  exact Set.inter_eq_left.mpr (Set.union_subset h.cover_lt fun b hb => hb.2.2)

theorem cover_reopenRange {pf : PartFile} (h : pf.Ok) (a b : Nat) :
    cover (pf.reopenRange a b).gaps =
      if a < b ∧ b ≤ pf.size then cover pf.gaps ∪ Set.Ico a b else cover pf.gaps := by
  unfold reopenRange
  by_cases hab : a < b ∧ b ≤ pf.size
  · rw [if_neg (by omega), if_pos hab]
    show cover (normalizeGaps _ _) = _
    rw [cover_normalizeGaps, cover_append, cover_cons, cover_nil, Set.union_empty]
    exact Set.inter_eq_left.mpr
      (Set.union_subset h.cover_lt fun x hx => hx.2.trans_le hab.2)
  · rw [if_pos (by omega), if_neg hab]

end PartFile

/-! ## Runs -/

/-- One operation on the gap list of a file of `size` bytes. The part given to
    `mark_corrupt` is one of the file's data parts. -/
inductive GapOp (size : Nat) where
  | fillGap (start stop : Nat)
  | markCorrupt (part : Fin (dataPartCount size))
  | reopenRange (start stop : Nat)
  | resetAllGaps

namespace GapOp

def apply {size : Nat} : GapOp size → PartFile → PartFile
  | fillGap a b, pf => pf.fillGap a b
  | markCorrupt p, pf => pf.markCorrupt p
  | reopenRange a b, pf => pf.reopenRange a b
  | resetAllGaps, pf => pf.resetAllGaps

/-- What the operation means for the set `w` of missing bytes. -/
def wanted {size : Nat} : GapOp size → Set Nat → Set Nat
  | fillGap a b, w => w \ Set.Ico a b
  | markCorrupt p, w => w ∪ PartFile.partBytes p size
  | reopenRange a b, w => if a < b ∧ b ≤ size then w ∪ Set.Ico a b else w
  | resetAllGaps, _ => Set.Iio size

/-- One operation keeps the invariant and changes the covered set as it says. -/
theorem apply_refines {size : Nat} (op : GapOp size) {pf : PartFile} (hs : pf.size = size)
    (h : pf.Ok) :
    (op.apply pf).size = size ∧ (op.apply pf).Ok ∧
      cover (op.apply pf).gaps = op.wanted (cover pf.gaps) := by
  subst hs
  cases op with
  | fillGap a b => exact ⟨pf.size_fillGap a b, h.fillGap a b, PartFile.cover_fillGap h a b⟩
  | markCorrupt p =>
    exact ⟨pf.size_markCorrupt p, PartFile.ok_markCorrupt pf p, PartFile.cover_markCorrupt h p⟩
  | reopenRange a b =>
    exact ⟨pf.size_reopenRange a b, h.reopenRange a b, PartFile.cover_reopenRange h a b⟩
  | resetAllGaps => exact ⟨rfl, PartFile.ok_resetAllGaps pf, PartFile.cover_wholeGap pf.size⟩

end GapOp

/-- How a `PartFile` comes into being. -/
inductive PartFileStart where
  | new
  | resume (gaps : List Gap) (corrupted : List Nat)

namespace PartFileStart

def partFile (hash : Hash16) (size : Nat) : PartFileStart → PartFile
  | new => PartFile.new hash size
  | resume gaps corrupted => PartFile.resume hash size gaps corrupted

/-- The missing bytes at the start: everything, or the listed gaps inside the file. -/
def wanted (size : Nat) : PartFileStart → Set Nat
  | new => Set.Iio size
  | resume gaps _ => cover gaps ∩ Set.Iio size

theorem partFile_refines (hash : Hash16) (size : Nat) (s : PartFileStart) :
    (s.partFile hash size).size = size ∧ (s.partFile hash size).Ok ∧
      cover (s.partFile hash size).gaps = s.wanted size := by
  cases s with
  | new => exact ⟨rfl, PartFile.ok_of_wholeGap rfl, PartFile.cover_wholeGap size⟩
  | resume gaps corrupted =>
    exact ⟨rfl, PartFile.ok_normalize _, PartFile.cover_normalizeGaps size gaps⟩

end PartFileStart

/-- Every run of operations from a well-formed list stays well formed and covers the
    bytes the operations leave missing. -/
theorem runGapOps_refines {size : Nat} (ops : List (GapOp size)) {pf : PartFile}
    (hs : pf.size = size) (h : pf.Ok) {w : Set Nat} (hw : cover pf.gaps = w) :
    (ops.foldl (fun pf op => op.apply pf) pf).size = size ∧
      (ops.foldl (fun pf op => op.apply pf) pf).Ok ∧
      cover (ops.foldl (fun pf op => op.apply pf) pf).gaps =
        ops.foldl (fun w op => op.wanted w) w := by
  induction ops generalizing pf w with
  | nil => exact ⟨hs, h, hw⟩
  | cons op ops ih =>
    obtain ⟨hs', h', hw'⟩ := op.apply_refines hs h
    exact ih hs' h' (hw ▸ hw')

/-- Gap-list invariant and byte accounting over whole runs, from a new download or a
    resumed one with any gap list. -/
theorem gap_list_over_runs (hash : Hash16) (size : Nat) (s : PartFileStart)
    (ops : List (GapOp size)) :
    let pf := ops.foldl (fun pf op => op.apply pf) (s.partFile hash size)
    let w := ops.foldl (fun w op => op.wanted w) (s.wanted size)
    (pf.gaps.Pairwise fun a b => a.stop < b.start) ∧
      (∀ g ∈ pf.gaps, g.start < g.stop ∧ g.stop ≤ size) ∧
      cover pf.gaps = w ∧
      pf.missing ≤ size ∧
      pf.missing + pf.presentBytes.card = size ∧
      IsGreatest {n | n ≤ size ∧ ∀ b < n, b ∉ w} pf.contiguousPrefix ∧
      ∀ part < dataPartCount size,
        pf.isPartComplete part = true ↔ ∀ b ∈ PartFile.partBytes part size, b ∉ w := by
  intro pf w
  obtain ⟨hs0, h0, hw0⟩ := s.partFile_refines hash size
  have hrun : pf.size = size ∧ pf.Ok ∧ cover pf.gaps = w := runGapOps_refines ops hs0 h0 hw0
  obtain ⟨hs, h, hc⟩ := hrun
  refine ⟨h.tidy.apart, fun g hg => ⟨h.tidy.nonempty g hg, hs ▸ h.stop_le g hg⟩, hc,
    hs ▸ h.missing_le, hs ▸ h.missing_add_present, ?_, fun part hp => ?_⟩
  · rw [← hc, ← hs]
    exact h.isGreatest_contiguousPrefix
  · rw [← hc, ← hs]
    exact h.isPartComplete_iff (hs ▸ hp)

end PadMule.Engine
