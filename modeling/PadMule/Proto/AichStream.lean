import PadMule.Proto.AichComplete
import PadMule.Lib.Segments
import Mathlib.Data.UInt

/-
  `AichLeafHasher`: the AICH tree of a file from its bytes in order, in any chunks.

  The lattice of leaves is one segmentation: each leaf ends at `leaf_end` of any position
  in it. `leaf_spans` is that segmentation, it splits where the tree splits, and the
  streaming hasher walks it; so the tree it returns has the reference hash.
-/

namespace PadMule.Proto.Aich

open Segments

/-- SHA-1, opaque; the incremental state may be fed in any chunks. -/
structure Sha1 where
  State : Type
  new : State
  update : State → Bytes → State
  finalize : State → Hash20
  chunked : ∀ cs ds : List Bytes, cs.flatten = ds.flatten →
    finalize (cs.foldl update new) = finalize (ds.foldl update new)

namespace Sha1

/-- `sha1`: one shot. -/
def digest (S : Sha1) (data : Bytes) : Hash20 := S.finalize (S.update S.new data)

/-- `sha1_pair`. -/
def pair (S : Sha1) (l r : Hash20) : Hash20 :=
  S.finalize (S.update (S.update S.new l.bytes) r.bytes)

theorem finalize_chunks (S : Sha1) (cs : List Bytes) :
    S.finalize (cs.foldl S.update S.new) = S.digest cs.flatten :=
  S.chunked cs [cs.flatten] (by simp)

/-- Any digest function, buffering its input. -/
def ofDigest (f : Bytes → Hash20) : Sha1 where
  State := Bytes
  new := []
  update := (· ++ ·)
  finalize := f
  chunked := by
    intro cs ds h
    have hfold : ∀ (cs : List Bytes) (b : Bytes), cs.foldl (· ++ ·) b = b ++ cs.flatten := by
      intro cs
      induction cs with
      | nil => simp
      | cons c cs ih => intro b; simp [ih]
    rw [hfold, hfold, h]

end Sha1

/-- The end offset of the leaf containing `pos`. -/
def leafEnd (fileSize pos : Nat) : Nat :=
  let partStart := pos - pos % PARTSIZE
  let partLen := min PARTSIZE (fileSize - partStart)
  let block := (pos - partStart) / EMBLOCKSIZE
  partStart + min partLen ((block + 1) * EMBLOCKSIZE)

/-- `leaf_spans`, from its state `(part_start, off)` on. -/
def leafSpansFrom (fileSize partStart off : Nat) : List (Nat × Nat) :=
  if fileSize ≤ partStart then []
  else
    let partLen := min PARTSIZE (fileSize - partStart)
    let len := min EMBLOCKSIZE (partLen - off)
    (partStart + off, len) ::
      if partLen ≤ off + EMBLOCKSIZE then leafSpansFrom fileSize (partStart + PARTSIZE) 0
      else leafSpansFrom fileSize partStart (off + EMBLOCKSIZE)
termination_by (fileSize - partStart, PARTSIZE - off)
decreasing_by
  all_goals
    have hP : PARTSIZE = 9728000 := rfl
    have hE : EMBLOCKSIZE = 184320 := rfl
  · exact .left _ _ (by omega)
  · exact .right _ (by omega)

/-- `(start, len)` of every leaf of a file, in file order. -/
def leafSpans (fileSize : Nat) : List (Nat × Nat) := leafSpansFrom fileSize 0 0

/-! ## The lattice -/

/-- Positions by part `k`, block `j` and offset `x` in the block. -/
theorem leafEnd_eq (n k j x : Nat) (hx : x < EMBLOCKSIZE) (hj : EMBLOCKSIZE * j + x < PARTSIZE) :
    leafEnd n (PARTSIZE * k + (EMBLOCKSIZE * j + x)) =
      PARTSIZE * k + min (min PARTSIZE (n - PARTSIZE * k)) (EMBLOCKSIZE * j + EMBLOCKSIZE) := by
  have hmod : (PARTSIZE * k + (EMBLOCKSIZE * j + x)) % PARTSIZE = EMBLOCKSIZE * j + x := by
    rw [Nat.mul_add_mod, Nat.mod_eq_of_lt hj]
  have hblock : (EMBLOCKSIZE * j + x) / EMBLOCKSIZE = j := by
    rw [Nat.mul_add_div (by decide), Nat.div_eq_of_lt hx, Nat.add_zero]
  simp only [leafEnd, hmod]
  rw [Nat.add_sub_cancel, Nat.add_sub_cancel_left, hblock, Nat.succ_mul, Nat.mul_comm j]

theorem exists_position (pos : Nat) :
    ∃ k j x, pos = PARTSIZE * k + (EMBLOCKSIZE * j + x) ∧ x < EMBLOCKSIZE ∧
      EMBLOCKSIZE * j + x < PARTSIZE := by
  have h1 := Nat.div_add_mod pos PARTSIZE
  have h2 := Nat.div_add_mod (pos % PARTSIZE) EMBLOCKSIZE
  have h3 : pos % PARTSIZE < PARTSIZE := Nat.mod_lt _ (by decide)
  refine ⟨pos / PARTSIZE, pos % PARTSIZE / EMBLOCKSIZE, pos % PARTSIZE % EMBLOCKSIZE, ?_,
    Nat.mod_lt _ (by decide), ?_⟩ <;> omega

theorem lt_leafEnd {n pos : Nat} (h : pos < n) : pos < leafEnd n pos := by
  obtain ⟨k, j, x, rfl, hx, hj⟩ := exists_position pos
  rw [leafEnd_eq n k j x hx hj]
  omega

theorem leafEnd_le {n pos : Nat} (h : pos < n) : leafEnd n pos ≤ n := by
  obtain ⟨k, j, x, rfl, hx, hj⟩ := exists_position pos
  rw [leafEnd_eq n k j x hx hj]
  omega

/-- All positions of a leaf from `a` on have the same leaf end. -/
theorem leafEnd_const {n a pos : Nat} (ha : a ≤ pos) (hpos : pos < leafEnd n a) :
    leafEnd n pos = leafEnd n a := by
  obtain ⟨k, j, x, rfl, hx, hj⟩ := exists_position a
  rw [leafEnd_eq n k j x hx hj] at hpos ⊢
  have hpos' : pos = PARTSIZE * k + (EMBLOCKSIZE * j + (pos - PARTSIZE * k - EMBLOCKSIZE * j)) := by
    omega
  rw [hpos', leafEnd_eq] <;> omega

/-- `leaf_spans` is the segmentation by `leaf_end`. -/
theorem leafSpansFrom_eq (n k j : Nat) (hj : EMBLOCKSIZE * j < min PARTSIZE (n - PARTSIZE * k)) :
    leafSpansFrom n (PARTSIZE * k) (EMBLOCKSIZE * j) =
      segments (leafEnd n) n (PARTSIZE * k + EMBLOCKSIZE * j) := by
  have hend := leafEnd_eq n k j 0 (by decide) (by omega)
  rw [Nat.add_zero] at hend
  have hE : 0 < EMBLOCKSIZE := by decide
  have hP : 0 < PARTSIZE := by decide
  rw [segments_cons (by omega) (by omega), leafSpansFrom, if_neg (by omega)]
  dsimp only
  congr 1
  · rw [Prod.mk.injEq]
    omega
  · by_cases hlast : min PARTSIZE (n - PARTSIZE * k) ≤ EMBLOCKSIZE * j + EMBLOCKSIZE
    · rw [if_pos hlast, hend, Nat.min_eq_left hlast, ← Nat.mul_succ]
      by_cases hmore : PARTSIZE * k.succ < n
      · have hrec := leafSpansFrom_eq n k.succ 0 (by omega)
        rw [Nat.mul_zero, Nat.add_zero] at hrec
        rw [hrec, Nat.min_eq_left (by rw [Nat.mul_succ] at hmore; omega), Nat.mul_succ]
      · rw [leafSpansFrom, if_pos (by omega), segments_of_le]
        rw [Nat.mul_succ] at hmore
        omega
    · rw [if_neg hlast, hend, Nat.min_eq_right (by omega), ← Nat.mul_succ,
        leafSpansFrom_eq n k j.succ (by rw [Nat.mul_succ]; omega)]
termination_by (n - PARTSIZE * k, PARTSIZE - EMBLOCKSIZE * j)
decreasing_by
  all_goals
    have hE : 0 < EMBLOCKSIZE := by decide
    rw [Nat.mul_succ]
  · exact .left _ _ (by omega)
  · exact .right _ (by omega)

theorem leafSpans_eq (n : Nat) : leafSpans n = segments (leafEnd n) n 0 := by
  by_cases h : n = 0
  · subst h
    rw [segments_of_le (by omega), leafSpans, leafSpansFrom, if_pos (by omega)]
  · have hP : 0 < PARTSIZE := by decide
    have := leafSpansFrom_eq n 0 0 (by omega)
    simpa [leafSpans] using this

theorem leafSpans_bound {n : Nat} {g : Nat × Nat} (hg : g ∈ leafSpans n) : g.1 + g.2 ≤ n := by
  rw [leafSpans_eq] at hg
  exact segments_bound (fun a ha => leafEnd_le ha) hg

/-- Up to `PARTSIZE` there is only the first part. -/
theorem part_eq_zero {n k y : Nat} (hn : n ≤ PARTSIZE) (h : PARTSIZE * k + y < n) : k = 0 := by
  by_contra hk
  have hone := Nat.mul_le_mul_left PARTSIZE (Nat.one_le_iff_ne_zero.mpr hk)
  omega

/-- Before a split the leaf ends are those of the left half. -/
theorem leafEnd_left {n : Nat} (s : Bool) (hn : baseFor n < n) {a : Nat} (ha : a < leftSize n s) :
    leafEnd n a = leafEnd (leftSize n s) a := by
  have hlt := leftSize_lt s hn
  obtain ⟨c, hc⟩ := baseFor_dvd_leftSize n s
  obtain ⟨k, j, x, rfl, hx, hj⟩ := exists_position a
  rw [leafEnd_eq n k j x hx hj, leafEnd_eq _ k j x hx hj]
  by_cases hP : n ≤ PARTSIZE
  · rw [baseFor_of_le hP] at hc
    have hk : k = 0 := part_eq_zero hP (ha.trans hlt)
    have hjc : EMBLOCKSIZE * (j + 1) ≤ EMBLOCKSIZE * c := by
      refine Nat.mul_le_mul_left _ (Nat.succ_le_of_lt (Nat.lt_of_mul_lt_mul_left (a := EMBLOCKSIZE) ?_))
      omega
    rw [Nat.mul_succ] at hjc
    subst hk
    omega
  · rw [baseFor_of_lt (by omega)] at hc
    have hkc : PARTSIZE * (k + 1) ≤ PARTSIZE * c := by
      refine Nat.mul_le_mul_left _ (Nat.succ_le_of_lt (Nat.lt_of_mul_lt_mul_left (a := PARTSIZE) ?_))
      omega
    rw [Nat.mul_succ] at hkc
    omega

/-- Behind a split they are those of the right half, shifted. -/
theorem leafEnd_right {n : Nat} (s : Bool) (hn : baseFor n < n) {a : Nat}
    (ha : a < n - leftSize n s) :
    leafEnd n (leftSize n s + a) = leftSize n s + leafEnd (n - leftSize n s) a := by
  have hlt := leftSize_lt s hn
  obtain ⟨c, hc⟩ := baseFor_dvd_leftSize n s
  obtain ⟨k, j, x, rfl, hx, hj⟩ := exists_position a
  by_cases hP : n ≤ PARTSIZE
  · rw [baseFor_of_le hP] at hc
    have hk : k = 0 := part_eq_zero hP (ha.trans_le (Nat.sub_le _ _))
    subst hk
    have hpos : leftSize n s + (PARTSIZE * 0 + (EMBLOCKSIZE * j + x)) =
        PARTSIZE * 0 + (EMBLOCKSIZE * (c + j) + x) := by
      rw [hc, Nat.mul_add]
      omega
    rw [leafEnd_eq (n - leftSize n s) 0 j x hx hj, hpos,
      leafEnd_eq n 0 (c + j) x hx (by rw [Nat.mul_add]; omega), Nat.mul_add]
    omega
  · rw [baseFor_of_lt (by omega)] at hc
    have hpos : leftSize n s + (PARTSIZE * k + (EMBLOCKSIZE * j + x)) =
        PARTSIZE * (c + k) + (EMBLOCKSIZE * j + x) := by
      rw [hc, Nat.mul_add]
      omega
    rw [leafEnd_eq (n - leftSize n s) k j x hx hj, hpos, leafEnd_eq n (c + k) j x hx hj,
      Nat.mul_add]
    omega

/-- The leaves of a node are those of its left half, then those of its right half. -/
theorem leafSpans_split {n : Nat} (s : Bool) (hn : baseFor n < n) :
    leafSpans n =
      leafSpans (leftSize n s) ++
        (leafSpans (n - leftSize n s)).map fun g => (leftSize n s + g.1, g.2) := by
  have hlt := leftSize_lt s hn
  rw [leafSpans_eq, leafSpans_eq, leafSpans_eq,
    segments_append (m := leftSize n s) hlt.le _ (Nat.zero_le _)]
  · rw [segments_congr fun a ha => leafEnd_left s hn ha]
    have hshift := segments_shift (m := leftSize n s) (s := 0)
      (fun a ha => leafEnd_right s hn ha)
    rw [Nat.add_sub_cancel' hlt.le, Nat.add_zero] at hshift
    rw [hshift]
  · intro a ha
    refine ⟨lt_leafEnd (by omega), ?_⟩
    rw [leafEnd_left s hn ha]
    exact leafEnd_le ha

theorem leafSpans_leaf {n : Nat} (hpos : 0 < n) (hn : n ≤ baseFor n) : leafSpans n = [(0, n)] := by
  have hle := le_baseFor_iff.mp hn
  have hEP := EMBLOCKSIZE_le_PARTSIZE
  have hend : leafEnd n 0 = n := by
    have h := leafEnd_eq n 0 0 0 (by decide) (by decide)
    simp only [Nat.mul_zero, Nat.add_zero, Nat.zero_add, Nat.sub_zero] at h
    rw [h]
    omega
  rw [leafSpans_eq, segments_cons hpos (by omega), hend, segments_of_le (Nat.le_refl _),
    Nat.sub_zero]

/-- `leaf_count` counts the spans. -/
theorem length_leafSpans (n : Nat) (s : Bool) :
    0 < n → (leafSpans n).length = AichTree.leafCount n := by
  induction n, s using split_induction with
  | leaf n s hn =>
    intro hpos
    rw [leafSpans_leaf hpos hn, leafCount_leaf hpos hn]
    rfl
  | inner n s hn ihl ihr =>
    intro _
    have hlt := leftSize_lt s hn
    rw [leafSpans_split s hn, List.length_append, List.length_map, ihl (leftSize_pos s hn),
      ihr (by omega), ← leafCount_split s hn]

/-! ## `AichLeafHasher` -/

structure AichLeafHasher (S : Sha1) where
  fileSize : Nat
  pos : Nat
  cur : S.State
  leaves : List Hash20

namespace AichLeafHasher

variable {S : Sha1}

/-- `new`: `None` for an empty file. -/
def new (S : Sha1) (fileSize : Nat) : Option (AichLeafHasher S) :=
  if fileSize = 0 then none else some ⟨fileSize, 0, S.new, []⟩

/-- One round of the loop in `update`: absorb `data`, which ends by the leaf's `last`. -/
def absorb (self : AichLeafHasher S) (last : Nat) (data : Bytes) : AichLeafHasher S :=
  let cur := S.update self.cur data
  let pos := self.pos + data.length
  if pos = last then
    { self with pos := pos, cur := S.new, leaves := self.leaves ++ [S.finalize cur] }
  else { self with pos := pos, cur := cur }

@[simp] theorem absorb_fileSize (self : AichLeafHasher S) (last : Nat) (data : Bytes) :
    (self.absorb last data).fileSize = self.fileSize := by
  unfold absorb
  dsimp only
  split <;> rfl

@[simp] theorem absorb_pos (self : AichLeafHasher S) (last : Nat) (data : Bytes) :
    (self.absorb last data).pos = self.pos + data.length := by
  unfold absorb
  dsimp only
  split <;> rfl

/-- The loop of `update`, on data that fits in the file. -/
def feed (self : AichLeafHasher S) (data : Bytes) (h : self.pos + data.length ≤ self.fileSize) :
    AichLeafHasher S :=
  if hd : data = [] then self
  else
    let last := leafEnd self.fileSize self.pos
    let take := min (last - self.pos) data.length
    (self.absorb last (data.take take)).feed (data.drop take) (by
      simp only [absorb_pos, absorb_fileSize, List.length_take, List.length_drop]
      omega)
termination_by data.length
decreasing_by
  have hpos := List.length_pos_iff.mpr hd
  have hlast := lt_leafEnd (n := self.fileSize) (show self.pos < self.fileSize by omega)
  rw [List.length_drop]
  omega

/-- `update`: false if fed past the file size. -/
def update (self : AichLeafHasher S) (data : Bytes) : Bool × AichLeafHasher S :=
  if h : self.fileSize < self.pos + data.length then (false, self)
  else (true, self.feed data (Nat.le_of_not_lt h))

/-- Feed the chunks in order; `none` as soon as an update fails. -/
def updates : AichLeafHasher S → List Bytes → Option (AichLeafHasher S)
  | self, [] => some self
  | self, c :: cs =>
    let (ok, self) := self.update c
    if ok then updates self cs else none

/-- `finish`: `None` unless exactly the file was fed. -/
def finish (self : AichLeafHasher S) : Option AichTree :=
  if self.pos ≠ self.fileSize then none
  else AichTree.fromLeaves S.pair self.fileSize self.leaves

/-- The hasher in the middle of `content`: the spans `closed` are hashed, and the open leaf
    holds the bytes from `start` on, fed as `pieces`. -/
structure Mid (content : Bytes) (hasher : AichLeafHasher S) (closed : List (Nat × Nat))
    (start : Nat) (pieces : List Bytes) : Prop where
  size : hasher.fileSize = content.length
  start_le : start ≤ hasher.pos
  pos_le : hasher.pos ≤ content.length
  open_leaf : start < content.length → hasher.pos < leafEnd content.length start
  spans : leafSpans content.length =
    closed ++ segments (leafEnd content.length) content.length start
  leaves : hasher.leaves = closed.map fun g => S.digest (slice content g)
  cur : hasher.cur = pieces.foldl S.update S.new
  bytes : pieces.flatten = slice content (start, hasher.pos - start)

theorem mid_new {content : Bytes} {self : AichLeafHasher S}
    (h : new S content.length = some self) : Mid content self [] 0 [] := by
  unfold new at h
  split at h
  · cases h
  · cases h
    refine ⟨rfl, Nat.le_refl _, Nat.zero_le _, fun h => lt_leafEnd h, ?_, rfl, rfl, ?_⟩
    · rw [leafSpans_eq]
      rfl
    · simp [slice]

/-- Bytes up to the end of the open leaf: it stays open, or is hashed and the next opens. -/
theorem Mid.absorb {content : Bytes} {self : AichLeafHasher S} {closed : List (Nat × Nat)}
    {start : Nat} {pieces : List Bytes} (hm : Mid content self closed start pieces)
    {data rest : Bytes} (hdata : content.drop self.pos = data ++ rest)
    (hpos : self.pos < content.length)
    (hfit : self.pos + data.length ≤ leafEnd self.fileSize self.pos) :
    ∃ closed start pieces,
      Mid content (self.absorb (leafEnd self.fileSize self.pos) data) closed start pieces := by
  have hsl := hm.start_le
  have hopen := hm.open_leaf (by omega)
  have hend : leafEnd self.fileSize self.pos = leafEnd content.length start := by
    rw [hm.size]
    exact leafEnd_const hsl hopen
  have hle := leafEnd_le (show start < content.length by omega)
  have hbytes : (pieces ++ [data]).flatten =
      slice content (start, self.pos + data.length - start) := by
    have htake : (content.drop self.pos).take data.length = data := by rw [hdata, List.take_left]
    rw [List.flatten_append, hm.bytes, List.flatten_singleton]
    simp only [slice]
    rw [show self.pos + data.length - start = self.pos - start + data.length by omega,
      List.take_add, List.drop_drop, show start + (self.pos - start) = self.pos by omega, htake]
  have hcur : S.update self.cur data = (pieces ++ [data]).foldl S.update S.new := by
    rw [List.foldl_append, ← hm.cur]
    rfl
  unfold AichLeafHasher.absorb
  dsimp only
  rw [hend] at hfit ⊢
  by_cases hlast : self.pos + data.length = leafEnd content.length start
  · rw [if_pos hlast]
    refine ⟨closed ++ [(start, leafEnd content.length start - start)],
      leafEnd content.length start, [], ⟨hm.size, ?_, ?_, ?_, ?_, ?_, rfl, ?_⟩⟩
    · exact hlast.ge
    · exact hlast.trans_le hle
    · intro hlt
      rw [hlast]
      exact lt_leafEnd hlt
    · rw [hm.spans, segments_cons (by omega) (by omega), List.append_assoc]
      rfl
    · rw [List.map_append, hm.leaves, hcur, S.finalize_chunks, hbytes, hlast]
      rfl
    · simp [slice, hlast]
  · rw [if_neg hlast]
    refine ⟨closed, start, pieces ++ [data], ⟨hm.size, ?_, ?_, ?_, hm.spans, hm.leaves, hcur,
      hbytes⟩⟩
    · exact hsl.trans (Nat.le_add_right _ _)
    · exact hfit.trans hle
    · intro _
      exact Nat.lt_of_le_of_ne hfit hlast

/-- The loop of `update` keeps the invariant and consumes the data. -/
theorem Mid.feed {content : Bytes} {self : AichLeafHasher S} {closed : List (Nat × Nat)}
    {start : Nat} {pieces : List Bytes} (hm : Mid content self closed start pieces)
    {data rest : Bytes} (h : self.pos + data.length ≤ self.fileSize)
    (hdata : content.drop self.pos = data ++ rest) :
    (self.feed data h).pos = self.pos + data.length ∧
      ∃ closed start pieces, Mid content (self.feed data h) closed start pieces := by
  induction hn : data.length using Nat.strong_induction_on
    generalizing self data closed start pieces with
  | _ n ih =>
    rw [AichLeafHasher.feed]
    split
    · rename_i hd
      subst hd hn
      exact ⟨rfl, closed, start, pieces, hm⟩
    · rename_i hd
      have hlen := List.length_pos_iff.mpr hd
      have hlast := lt_leafEnd (n := self.fileSize) (show self.pos < self.fileSize by omega)
      dsimp only
      have htake : (data.take (min (leafEnd self.fileSize self.pos - self.pos) data.length)).length =
          min (leafEnd self.fileSize self.pos - self.pos) data.length := by
        rw [List.length_take]
        omega
      have hsplit : content.drop self.pos =
          data.take (min (leafEnd self.fileSize self.pos - self.pos) data.length) ++
            (data.drop (min (leafEnd self.fileSize self.pos - self.pos) data.length) ++ rest) := by
        rw [hdata, ← List.append_assoc, List.take_append_drop]
      obtain ⟨closed', start', pieces', hm'⟩ :=
        hm.absorb hsplit (by rw [← hm.size]; omega) (by rw [htake]; omega)
      have hrest := congrArg (List.drop
        (min (leafEnd self.fileSize self.pos - self.pos) data.length)) hsplit
      rw [List.drop_drop, List.drop_left' htake, ← htake,
        ← absorb_pos self (leafEnd self.fileSize self.pos), htake] at hrest
      obtain ⟨hpos, hmid⟩ := ih _ (by rw [List.length_drop]; omega) hm'
        (by rw [absorb_pos, absorb_fileSize, htake, List.length_drop]; omega) hrest rfl
      refine ⟨?_, hmid⟩
      rw [hpos, absorb_pos, htake, List.length_drop]
      omega

/-- Feeding any cut of the rest of the content succeeds and reaches its end. -/
theorem Mid.updates {content : Bytes} {self : AichLeafHasher S} {closed : List (Nat × Nat)}
    {start : Nat} {pieces : List Bytes} (hm : Mid content self closed start pieces)
    {chunks : List Bytes} (hc : content.drop self.pos = chunks.flatten) :
    ∃ done, self.updates chunks = some done ∧ done.pos = content.length ∧
      ∃ closed start pieces, Mid content done closed start pieces := by
  induction chunks generalizing self closed start pieces with
  | nil =>
    refine ⟨self, rfl, ?_, closed, start, pieces, hm⟩
    have hle := List.drop_eq_nil_iff.mp hc
    exact Nat.le_antisymm hm.pos_le hle
  | cons c cs ih =>
    have hlen := congrArg List.length hc
    rw [List.flatten_cons, List.length_append, List.length_drop] at hlen
    have hfit : self.pos + c.length ≤ self.fileSize := by
      have := hm.pos_le
      rw [hm.size]
      omega
    obtain ⟨hpos, closed', start', pieces', hm'⟩ := hm.feed hfit hc
    have hup : self.update c = (true, self.feed c hfit) := by
      rw [update, dif_neg (by omega)]
    rw [AichLeafHasher.updates, hup]
    refine ih hm' ?_
    rw [hpos, ← List.drop_drop, hc, List.flatten_cons, List.drop_left]

/-- At the end of the content every span is closed. -/
theorem Mid.closed_eq {content : Bytes} {self : AichLeafHasher S} {closed : List (Nat × Nat)}
    {start : Nat} {pieces : List Bytes} (hm : Mid content self closed start pieces)
    (hend : self.pos = content.length) : closed = leafSpans content.length := by
  have hstart : content.length ≤ start := by
    by_contra hlt
    have hopen := hm.open_leaf (by omega)
    have hle := leafEnd_le (show start < content.length by omega)
    omega
  rw [hm.spans, segments_of_le hstart, List.append_nil]

end AichLeafHasher

/-! ## The reference fold -/

/-- `tree_hash_reference`: the one-shot recursive fold. -/
def treeHashReference (S : Sha1) (data : Bytes) (isLeft : Bool) : Hash20 :=
  if _h : data.length ≤ baseFor data.length then S.digest data
  else
    let left := splitLeft data.length isLeft (baseFor data.length)
    S.pair (treeHashReference S (data.take left) true) (treeHashReference S (data.drop left) false)
termination_by data.length
decreasing_by
  all_goals
    have hsplit := splitLeft_bounds isLeft (baseFor_pos data.length) (by omega : _ < data.length)
  · rw [List.length_take]
    omega
  · rw [List.length_drop]
    omega

/-- `ref_master`. -/
def refMaster (S : Sha1) (data : Bytes) : Hash20 := treeHashReference S data true

namespace Node

/-- A complete tree over the digests of the leaves has the reference hash. -/
theorem Complete.hash_eq_reference {S : Sha1} {n : Nat} {s : Bool} {T : Node}
    (h : Complete S.pair n s T) {data : Bytes} (hlen : data.length = n) (hpos : 0 < n)
    (hleaves : T.leafHashes = (leafSpans n).map fun g => S.digest (slice data g)) :
    T.hash = some (treeHashReference S data s) := by
  induction h generalizing data with
  | @leaf n s x hn =>
    subst hlen
    rw [leafSpans_leaf hpos hn] at hleaves
    have hx : x = S.digest data := by
      simpa [leafHashes, leafRecords, slice] using hleaves
    rw [treeHashReference, dif_pos hn, hx]
    rfl
  | @inner n s l r lh rh hn hl hr hlh hrh ihl ihr =>
    subst hlen
    have hlt := leftSize_lt s hn
    have hposl := leftSize_pos s hn
    rw [leafHashes_inner hl.present, leafSpans_split s hn, List.map_append, List.map_map] at hleaves
    obtain ⟨hel, her⟩ := List.append_inj hleaves (by
      rw [hl.length_leafHashes hposl, List.length_map, length_leafSpans _ true hposl])
    have hll := @ihl (data.take (leftSize data.length s))
      (by rw [List.length_take]; omega) hposl (by
        rw [hel]
        refine List.map_congr_left fun g hg => ?_
        rw [slice_take (leafSpans_bound hg)])
    have hrr := @ihr (data.drop (leftSize data.length s))
      (by rw [List.length_drop]) (by omega) (by
        rw [her]
        refine List.map_congr_left fun g _ => ?_
        rw [slice_drop]
        rfl)
    rw [treeHashReference, dif_neg (by omega)]
    rw [hlh] at hll
    rw [hrh] at hrr
    rw [Option.some.inj hll, Option.some.inj hrr]
    rfl

/-! ## Reading the leaves back -/

/-- Writing the lowest level of a complete tree without idents writes its leaf hashes. -/
theorem Complete.writeLowestLevel {pair : Hash20 → Hash20 → Hash20} {n : Nat} {s : Bool}
    {T : Node} (h : Complete pair n s T) (ident32 : Bool) (ident : Nat) :
    T.writeLowestLevel true ident32 ident = some (T.leafHashes.flatMap Digest.bytes) := by
  induction h generalizing ident with
  | leaf x hn => simp [Node.writeLowestLevel, isAbsent, leafHashes, leafRecords, hn]
  | inner hn hl hr _ _ ihl ihr =>
    rw [Node.writeLowestLevel, leafHashes_inner hl.present]
    simp [hl.present, hr.present, ihl, ihr]

end Node

theorem chunksExact_flatMap (hs : List Hash20) :
    AichTree.chunksExact hs.length (hs.flatMap Digest.bytes) = hs := by
  induction hs with
  | nil => rfl
  | cons x hs ih =>
    have hx : x.bytes.length = HASHSIZE := x.len
    have hlen : HASHSIZE ≤ ((x :: hs).flatMap Digest.bytes).length := by
      rw [List.flatMap_cons, List.length_append, hx]
      exact Nat.le_add_right _ _
    rw [List.length_cons, AichTree.chunksExact, dif_pos hlen]
    congr 1
    · exact Digest.ext_bytes (by simp only [List.flatMap_cons]; rw [← hx, List.take_left])
    · rw [List.flatMap_cons, ← hx, List.drop_left, ih]

theorem length_flatMap_bytes (hs : List Hash20) :
    (hs.flatMap Digest.bytes).length = HASHSIZE * hs.length := by
  induction hs with
  | nil => rfl
  | cons x hs ih =>
    have hx : x.bytes.length = HASHSIZE := x.len
    rw [List.flatMap_cons, List.length_append, ih, hx, List.length_cons, Nat.mul_succ, Nat.add_comm]

/-- `leaves` of a complete tree. -/
theorem leaves_eq {pair : Hash20 → Hash20 → Hash20} {n : Nat} {T : Node}
    (h : Node.Complete pair n true T) : (AichTree.mk T).leaves = some T.leafHashes := by
  simp only [AichTree.leaves, h.writeLowestLevel]
  rw [Option.bind_eq_bind, Option.bind_some, length_flatMap_bytes,
    Nat.mul_div_cancel_left _ (by decide), chunksExact_flatMap]
  rfl

/-! ## Streaming is the reference -/

/-- Whatever the chunking, the streaming hasher succeeds on a non-empty content: the leaves
    are the digests of the spans, `leaf_count` of them, and the root is the reference. -/
theorem streaming_matches_reference (S : Sha1) {content : Bytes} (hne : content ≠ [])
    {chunks : List Bytes} (hcut : chunks.flatten = content) :
    ∃ hasher done T, AichLeafHasher.new S content.length = some hasher ∧
      hasher.updates chunks = some done ∧ done.finish = some T ∧
      T.leaves = some ((leafSpans content.length).map fun g => S.digest (slice content g)) ∧
      (leafSpans content.length).length = AichTree.leafCount content.length ∧
      T.masterHash = some (refMaster S content) := by
  have hpos : 0 < content.length := List.length_pos_iff.mpr hne
  have hnew : AichLeafHasher.new S content.length = some ⟨content.length, 0, S.new, []⟩ :=
    if_neg hpos.ne'
  obtain ⟨done, hup, hend, closed, start, pieces, hm⟩ :=
    @AichLeafHasher.Mid.updates _ _ _ _ _ _ (AichLeafHasher.mid_new hnew) chunks hcut.symm
  have hclosed := hm.closed_eq hend
  have hleaves := hm.leaves
  rw [hclosed] at hleaves
  have hcount := length_leafSpans content.length true hpos
  obtain ⟨T, hT, hc, hh⟩ := @fromLeaves_eq S.pair _ done.leaves hpos (by
    rw [hleaves, List.length_map, hcount])
  refine ⟨_, done, ⟨T⟩, hnew, hup, ?_, ?_, hcount, ?_⟩
  · rw [AichLeafHasher.finish, if_neg (by rw [hend, hm.size]; exact not_not.mpr rfl), hm.size, hT]
  · rw [leaves_eq hc, hh, hleaves]
  · exact hc.hash_eq_reference rfl hpos (hh.trans hleaves)

/-- Three bytes in two chunks, an empty one between them. -/
theorem three_bytes_stream :
    ∃ hasher done T, AichLeafHasher.new (Sha1.ofDigest fun b => Digest.fill 20 b.sum) 3 =
        some hasher ∧
      hasher.updates [[1], [], [2, 3]] = some done ∧ done.finish = some T ∧
      T.masterHash = some (Digest.fill 20 6) := by
  obtain ⟨hasher, done, T, hnew, hup, hfin, -, -, hmaster⟩ :=
    streaming_matches_reference (Sha1.ofDigest fun b => Digest.fill 20 b.sum)
      (show [1, 2, 3] ≠ ([] : Bytes) by decide)
      (show [[1], [], [2, 3]].flatten = ([1, 2, 3] : Bytes) by decide)
  refine ⟨hasher, done, T, hnew, hup, hfin, ?_⟩
  rw [hmaster, refMaster, treeHashReference, dif_pos (by decide)]
  rfl

end PadMule.Proto.Aich
