import PadMule.Proto.AichVerify

/-
  The blocks of a part: the leaves of the part's node, the offsets the source steps
  through, and what the lookups of these blocks find in a receiving tree.

  `PartAt` places a part in the tree. The sweep passes exactly when every leaf of the part
  has a hash within the level cap (`sweep_iff`), and `part_block_hashes` reads these hashes.
-/

namespace PadMule.Proto.Aich

/-! ## Heights -/

theorem le_ceilDiv_mul (n : Nat) {b : Nat} (hb : 0 < b) : n ≤ ceilDiv n b * b := by
  have hdm := Nat.div_add_mod n b
  have hlt := Nat.mod_lt n hb
  rw [Nat.mul_comm] at hdm
  unfold ceilDiv
  split
  · rw [Nat.add_zero]
    omega
  · rw [Nat.succ_mul]
    omega

theorem ceilDiv_le {n b m : Nat} (h : n ≤ m * b) : ceilDiv n b ≤ m := by
  have hdm := Nat.div_add_mod n b
  have hdiv : n / b ≤ m := Nat.div_le_of_le_mul (by rwa [Nat.mul_comm])
  unfold ceilDiv
  split
  · omega
  · rename_i hmod
    have hne : n / b ≠ m := by
      intro he
      rw [he, Nat.mul_comm] at hdm
      omega
    omega

/-- Both halves of a split have at most half the units, rounded up to a power of two. -/
theorem splitLeft_halves {n b k : Nat} (s : Bool) (hb : 0 < b) (h : n ≤ 2 * k * b) :
    splitLeft n s b ≤ k * b ∧ n - splitLeft n s b ≤ k * b := by
  have hc := ceilDiv_le h
  have hn := le_ceilDiv_mul n hb
  unfold splitLeft
  dsimp only
  generalize hw : (if s then ceilDiv n b + 1 else ceilDiv n b) / 2 = w
  have hwk : w ≤ k ∧ ceilDiv n b - w ≤ k := by
    cases s <;> simp at hw <;> omega
  refine ⟨Nat.mul_le_mul_right b hwk.1, ?_⟩
  calc n - w * b ≤ ceilDiv n b * b - w * b := Nat.sub_le_sub_right hn _
    _ = (ceilDiv n b - w) * b := (Nat.sub_mul _ _ _).symm
    _ ≤ k * b := Nat.mul_le_mul_right b hwk.2

namespace Node

section

variable {pair : Hash20 → Hash20 → Hash20}

theorem Complete.height_le_blocks {n : Nat} {s : Bool} {T : Node} (h : Complete pair n s T)
    {j : Nat} (hP : n ≤ PARTSIZE) (hj : n ≤ 2 ^ j * EMBLOCKSIZE) : T.height ≤ j + 1 := by
  induction h generalizing j with
  | leaf x hn => simp [height]
  | @inner n s l r lh rh hn hl hr _ _ ihl ihr =>
    have hlt := leftSize_lt s hn
    have hbase := baseFor_of_le hP
    cases j with
    | zero =>
      rw [pow_zero, one_mul, ← le_baseFor_iff] at hj
      omega
    | succ j =>
      have hle : n ≤ 2 * 2 ^ j * baseFor n := by rwa [hbase, ← pow_succ']
      have hhalf := splitLeft_halves s (baseFor_pos n) hle
      have h1 := ihl (j := j) (by omega) (hhalf.1.trans_eq (by rw [hbase]))
      have h2 := ihr (j := j) (by omega) (hhalf.2.trans_eq (by rw [hbase]))
      rw [height]
      omega

/-- `2 ^ k` parts put every node within `k + 6` edges of the root. -/
theorem Complete.height_le {n : Nat} {s : Bool} {T : Node} (h : Complete pair n s T) {k : Nat}
    (hk : n ≤ 2 ^ k * PARTSIZE) : T.height ≤ k + 7 := by
  induction h generalizing k with
  | leaf x hn =>
    simp only [height]
    omega
  | @inner n s l r lh rh hn hl hr hlh hrh ihl ihr =>
    by_cases hP : n ≤ PARTSIZE
    · have hb := (Complete.inner hn hl hr hlh hrh).height_le_blocks (j := 6) hP
        (hP.trans (by decide))
      omega
    · have hbase := baseFor_of_lt (Nat.lt_of_not_le hP)
      cases k with
      | zero => omega
      | succ k =>
        have hle : n ≤ 2 * 2 ^ k * baseFor n := by rwa [hbase, ← pow_succ']
        have hhalf := splitLeft_halves s (baseFor_pos n) hle
        have h1 := ihl (k := k) (hhalf.1.trans_eq (by rw [hbase]))
        have h2 := ihr (k := k) (hhalf.2.trans_eq (by rw [hbase]))
        rw [height]
        omega

/-! ## Leaves and the blocks of a part -/

theorem Complete.height_pos {n : Nat} {s : Bool} {T : Node} (h : Complete pair n s T) :
    0 < T.height := by
  cases h <;> simp [height]

theorem Complete.leafRecords_ne_nil {n : Nat} {s : Bool} {T : Node} (h : Complete pair n s T) :
    T.leafRecords ≠ [] := by
  induction h with
  | leaf x hn => simp [leafRecords]
  | inner hn hl hr _ _ ihl _ =>
    rw [leafRecords_inner hl.present]
    simp [ihl]

/-- A leaf record holds the hash at its path. -/
theorem Complete.hash_of_mem {n : Nat} {s : Bool} {T : Node} (h : Complete pair n s T)
    {r : List Bool × Hash20} (hr : r ∈ T.leafRecords) :
    (T.sub r.1).hash = some r.2 ∧ r.1.length < T.height := by
  induction h generalizing r with
  | leaf x hn =>
    have he : r = ([], x) := by simpa [leafRecords] using hr
    subst he
    exact ⟨rfl, by simp [height]⟩
  | inner hn hl hr' _ _ ihl ihr =>
    rw [leafRecords_inner hl.present, List.mem_append, List.mem_map, List.mem_map] at hr
    obtain ⟨r', hr, rfl⟩ | ⟨r', hr, rfl⟩ := hr
    · obtain ⟨hh, hlen⟩ := ihl hr
      refine ⟨hh, ?_⟩
      simp only [Prod.map, List.length_cons, height]
      omega
    · obtain ⟨hh, hlen⟩ := ihr hr
      refine ⟨hh, ?_⟩
      simp only [Prod.map, List.length_cons, height]
      omega

/-- The node at a block's extent is a leaf. -/
theorem Complete.mem_leafRecords {n start size : Nat} {s s' : Bool} {q : List Bool} {T : Node}
    (h : Complete pair n s T) (hc : Covers n s q start size s') (hsize : size ≤ EMBLOCKSIZE) :
    ∃ x, (q, x) ∈ T.leafRecords := by
  induction hc generalizing T with
  | here n s =>
    cases h with
    | leaf x hn => exact ⟨x, by simp [leafRecords]⟩
    | inner hn =>
      have := le_baseFor_iff.mpr hsize
      omega
  | left hin _ ih =>
    cases h with
    | leaf _ hn => omega
    | inner _ hl hr _ _ =>
      obtain ⟨x, hx⟩ := ih hl hsize
      refine ⟨x, ?_⟩
      rw [leafRecords_inner hl.present, List.mem_append, List.mem_map]
      exact .inl ⟨_, hx, rfl⟩
  | right hin _ ih =>
    cases h with
    | leaf _ hn => omega
    | inner _ hl hr _ _ =>
      obtain ⟨x, hx⟩ := ih hr hsize
      refine ⟨x, ?_⟩
      rw [leafRecords_inner hl.present, List.mem_append, List.mem_map, List.mem_map]
      exact .inr ⟨_, hx, rfl⟩

/-- The leaves below a path are leaves of the tree. -/
theorem Complete.mem_leafRecords_sub {n start size : Nat} {s s' : Bool} {p : List Bool}
    {T : Node} (h : Complete pair n s T) (hc : Covers n s p start size s')
    {r : List Bool × Hash20} (hr : r ∈ (T.sub p).leafRecords) :
    (p ++ r.1, r.2) ∈ T.leafRecords := by
  induction hc generalizing T with
  | here n s => rwa [sub_nil] at hr
  | left hin _ ih =>
    cases h with
    | leaf _ hn => omega
    | inner _ hl _ _ _ =>
      rw [leafRecords_inner hl.present, List.mem_append, List.mem_map]
      exact .inl ⟨_, ih hl hr, rfl⟩
  | right hin _ ih =>
    cases h with
    | leaf _ hn => omega
    | inner _ hl hr' _ _ =>
      rw [leafRecords_inner hl.present, List.mem_append, List.mem_map, List.mem_map]
      exact .inr ⟨_, ih hr' hr, rfl⟩

/-- The leaves of a part are its blocks. -/
theorem Complete.covers_of_mem {n : Nat} {s : Bool} {T : Node} (h : Complete pair n s T)
    (hP : n ≤ PARTSIZE) (hpos : 0 < n) {r : List Bool × Hash20} (hr : r ∈ T.leafRecords) :
    ∃ start s', EMBLOCKSIZE ∣ start ∧ start < n ∧
      Covers n s r.1 start (min EMBLOCKSIZE (n - start)) s' := by
  induction h generalizing r with
  | @leaf n s x hn =>
    have he : r = ([], x) := by simpa [leafRecords] using hr
    subst he
    refine ⟨0, s, Nat.dvd_zero _, hpos, ?_⟩
    rw [Nat.sub_zero, Nat.min_eq_right (le_baseFor_iff.mp hn)]
    exact .here n s
  | @inner n s l r' lh rh hn hl hr' _ _ ihl ihr =>
    have hlt := leftSize_lt s hn
    have hposl := leftSize_pos s hn
    have hdvd := baseFor_dvd_leftSize n s
    rw [baseFor_of_le hP] at hdvd
    rw [leafRecords_inner hl.present, List.mem_append, List.mem_map, List.mem_map] at hr
    obtain ⟨r, hr, rfl⟩ | ⟨r, hr, rfl⟩ := hr
    · obtain ⟨start, s', hd, hstart, hc⟩ := ihl (by omega) hposl hr
      have hgap : EMBLOCKSIZE ≤ leftSize n s - start :=
        Nat.le_of_dvd (by omega) (Nat.dvd_sub hdvd hd)
      rw [Nat.min_eq_left hgap, ← Nat.min_eq_left (show EMBLOCKSIZE ≤ n - start by omega)] at hc
      exact ⟨start, s', hd, by omega, .left hn hc⟩
    · obtain ⟨start, s', hd, hstart, hc⟩ := ihr (by omega) (by omega) hr
      rw [show n - leftSize n s - start = n - (leftSize n s + start) by omega] at hc
      exact ⟨leftSize n s + start, s', Nat.dvd_add hdvd hd, by omega, .right hn hc⟩

end

end Node

theorem mem_blockStarts {size start pos : Nat} :
    pos ∈ blockStarts size start ↔ start ≤ pos ∧ pos < size ∧ EMBLOCKSIZE ∣ pos - start := by
  have hE : 0 < EMBLOCKSIZE := by decide
  induction start using blockStarts.induct size with
  | case1 start hlt ih =>
    rw [blockStarts, if_pos hlt, List.mem_cons]
    refine (or_congr_right ih).trans ?_
    constructor
    · intro h
      obtain rfl | ⟨hle, hpos, hd⟩ := h
      · exact ⟨Nat.le_refl _, hlt, by simp⟩
      · refine ⟨by omega, hpos, ?_⟩
        have := Nat.dvd_add hd (Nat.dvd_refl EMBLOCKSIZE)
        rwa [show pos - (start + EMBLOCKSIZE) + EMBLOCKSIZE = pos - start by omega] at this
    · intro ⟨hle, hpos, hd⟩
      by_cases he : pos = start
      · exact .inl he
      · have hgap : EMBLOCKSIZE ≤ pos - start := Nat.le_of_dvd (by omega) hd
        refine .inr ⟨by omega, hpos, ?_⟩
        rw [← Nat.sub_sub]
        exact Nat.dvd_sub hd (Nat.dvd_refl _)
  | case2 start hlt =>
    rw [blockStarts, if_neg hlt]
    simp only [List.not_mem_nil, false_iff]
    omega

/-! ## A part in a receiving tree -/

open Node

/-- Where the part at `partStart` of an `n`-byte file lies: at the root path `p`. -/
structure PartAt (n partStart : Nat) (p : List Bool) (s : Bool) : Prop where
  aligned : PARTSIZE ∣ partStart
  inside : partStart < n
  covers : Covers n true p partStart (min PARTSIZE (n - partStart)) s

theorem exists_partAt {n partStart : Nat} (hpart : PARTSIZE ∣ partStart) (hlt : partStart < n) :
    ∃ p s, PartAt n partStart p s := by
  obtain ⟨p, s, hc⟩ := exists_covers_part true hpart hlt
  exact ⟨p, s, hpart, hlt, hc⟩

section

variable {pair : Hash20 → Hash20 → Hash20} {n partStart : Nat} {p : List Bool} {s : Bool}
  {root T : Node}

theorem PartAt.size_pos (h : PartAt n partStart p s) : 0 < min PARTSIZE (n - partStart) := by
  have := h.inside
  have hP : 0 < PARTSIZE := by decide
  omega

/-- The part of the complete tree. -/
theorem PartAt.complete (h : PartAt n partStart p s) (hT : Complete pair n true T) :
    Complete pair (min PARTSIZE (n - partStart)) s (T.sub p) :=
  hT.sub h.covers

theorem receiver_of_complete (hT : Complete pair n true T) {x : Hash20} (hx : T.hash = some x) :
    Receiver n x T := ⟨hT.shaped, hx⟩

/-- Looking a block up reads the hash at its path, within the level cap. -/
theorem findBlock_hash {master : Hash20} (hroot : Receiver n master root)
    (h : PartAt n partStart p s) {q : List Bool} {pos : Nat} {s' : Bool}
    (hc : Covers (min PARTSIZE (n - partStart)) s q pos
      (min EMBLOCKSIZE (min PARTSIZE (n - partStart) - pos)) s') :
    ((AichTree.mk root).findBlock partStart pos).bind Node.hash =
      if (p ++ q).length < MAX_LEVEL then (root.sub (p ++ q)).hash else none := by
  have hn := h.inside
  unfold AichTree.findBlock
  rw [hroot.partSize]
  exact find_hash (h.covers.trans hc) (by omega) hroot.shaped MAX_LEVEL

/-- Every block the sweep visits is a leaf of the part. -/
theorem exists_leaf_of_block (h : PartAt n partStart p s) (hT : Complete pair n true T) {pos : Nat}
    (hpos : pos ∈ blockStarts (min PARTSIZE (n - partStart)) 0) :
    ∃ q x s', (q, x) ∈ (T.sub p).leafRecords ∧ (T.sub (p ++ q)).hash = some x ∧
      Covers (min PARTSIZE (n - partStart)) s q pos
        (min EMBLOCKSIZE (min PARTSIZE (n - partStart) - pos)) s' := by
  obtain ⟨-, hlt, hd⟩ := mem_blockStarts.mp hpos
  rw [Nat.sub_zero] at hd
  obtain ⟨q, s', hc⟩ := exists_covers_block s (Nat.min_le_left _ _) hd hlt
  obtain ⟨x, hx⟩ := (h.complete hT).mem_leafRecords hc (Nat.min_le_left _ _)
  refine ⟨q, x, s', hx, ?_, hc⟩
  rw [sub_append]
  exact ((h.complete hT).hash_of_mem hx).1

/-- Every leaf of the part is visited. -/
theorem exists_block_of_leaf (h : PartAt n partStart p s) (hT : Complete pair n true T)
    {r : List Bool × Hash20} (hr : r ∈ (T.sub p).leafRecords) :
    ∃ pos ∈ blockStarts (min PARTSIZE (n - partStart)) 0, ∃ s',
      Covers (min PARTSIZE (n - partStart)) s r.1 pos
        (min EMBLOCKSIZE (min PARTSIZE (n - partStart) - pos)) s' := by
  obtain ⟨pos, s', hd, hlt, hc⟩ := (h.complete hT).covers_of_mem (Nat.min_le_left _ _) h.size_pos hr
  exact ⟨pos, mem_blockStarts.mpr ⟨Nat.zero_le _, hlt, by rwa [Nat.sub_zero]⟩, s', hc⟩

/-- The sweep passes when every leaf of the part has a hash within the level cap. -/
theorem sweep_iff {master : Hash20} (hroot : Receiver n master root) (h : PartAt n partStart p s)
    (hT : Complete pair n true T) :
    AichTree.sweep partStart ⟨root⟩ = true ↔
      ∀ r ∈ (T.sub p).leafRecords,
        (p ++ r.1).length < MAX_LEVEL ∧ (root.sub (p ++ r.1)).hash.isSome := by
  unfold AichTree.sweep
  rw [hroot.partSize, List.all_eq_true]
  constructor
  · intro hall r hr
    obtain ⟨pos, hpos, s', hc⟩ := exists_block_of_leaf h hT hr
    have hb := hall pos hpos
    rw [findBlock_hash hroot h hc] at hb
    split at hb
    · rename_i hlen
      exact ⟨hlen, hb⟩
    · cases hb
  · intro hall pos hpos
    obtain ⟨q, x, s', hq, -, hc⟩ := exists_leaf_of_block h hT hpos
    obtain ⟨hlen, hh⟩ := hall (q, x) hq
    rw [findBlock_hash hroot h hc, if_pos hlen]
    exact hh

/-- One entry of `part_block_hashes`. -/
def blockHash (partStart : Nat) (self : AichTree) (pos : Nat) : Option (Nat × Nat × Hash20) :=
  ((self.findBlock partStart pos).bind Node.hash).map fun hash =>
    (partStart + pos, min EMBLOCKSIZE (self.partSize partStart - pos), hash)

theorem partBlockHashes_eq {master : Hash20} (hroot : Receiver n master root)
    (h : PartAt n partStart p s) :
    (AichTree.mk root).partBlockHashes partStart =
      (blockStarts (min PARTSIZE (n - partStart)) 0).mapM (blockHash partStart ⟨root⟩) := by
  have hguard : ¬ ((AichTree.mk root).fileSize ≤ partStart ∨ ¬ PARTSIZE ∣ partStart) := by
    rw [hroot.fileSize]
    simp [h.aligned, h.inside]
  rw [AichTree.partBlockHashes, if_neg hguard, hroot.partSize]
  congr 1
  funext pos
  unfold blockHash
  cases (AichTree.mk root).findBlock partStart pos with
  | none => rfl
  | some node =>
    cases hn : node.hash with
    | none => simp [hn]
    | some x => simp [hn, hroot.partSize]

theorem mapM_congr_mem {α β : Type} {f g : α → Option β} {l : List α}
    (h : ∀ a ∈ l, f a = g a) : l.mapM f = l.mapM g := by
  induction l with
  | nil => rfl
  | cons a l ih =>
    obtain ⟨ha, hl⟩ := List.forall_mem_cons.mp h
    rw [List.mapM_cons, List.mapM_cons, ha, ih hl]

/-- Two lists of results agree entry by entry. -/
theorem eq_of_mapM_eq {α β : Type} {f g : α → Option β} {l : List α} {bs : List β}
    (hf : l.mapM f = some bs) (hg : l.mapM g = some bs) : ∀ a ∈ l, f a = g a ∧ (f a).isSome := by
  induction l generalizing bs with
  | nil => intro a ha; cases ha
  | cons a l ih =>
    rw [List.mapM_cons] at hf hg
    simp only [Option.bind_eq_bind, Option.bind_eq_some_iff, Option.pure_def,
      Option.some.injEq] at hf hg
    obtain ⟨b, hb, bs₁, hbs, rfl⟩ := hf
    obtain ⟨c, hc, cs₁, hcs, he⟩ := hg
    obtain ⟨rfl, rfl⟩ := List.cons.inj he
    refine List.forall_mem_cons.mpr ⟨?_, ih hbs hcs⟩
    rw [hb, hc]
    exact ⟨rfl, rfl⟩

/-- A receiving tree with the true hash on every leaf of the part reports the true blocks. -/
theorem partBlockHashes_congr {master x : Hash20} (hroot : Receiver n master root)
    (h : PartAt n partStart p s) (hT : Complete pair n true T) (hx : T.hash = some x)
    (hleaves : ∀ r ∈ (T.sub p).leafRecords, (root.sub (p ++ r.1)).hash = some r.2) :
    (AichTree.mk root).partBlockHashes partStart = (AichTree.mk T).partBlockHashes partStart := by
  have hTr := receiver_of_complete hT hx
  rw [partBlockHashes_eq hroot h, partBlockHashes_eq hTr h]
  refine mapM_congr_mem fun pos hpos => ?_
  obtain ⟨q, y, s', hq, hy, hc⟩ := exists_leaf_of_block h hT hpos
  unfold blockHash
  rw [findBlock_hash hroot h hc, findBlock_hash hTr h hc, hleaves (q, y) hq, hy, hroot.partSize,
    hTr.partSize]

/-- A part within the level cap has all its block hashes in the complete tree. -/
theorem partBlockHashes_complete {x : Hash20} (h : PartAt n partStart p s)
    (hT : Complete pair n true T) (hx : T.hash = some x)
    (hreach : ∀ r ∈ (T.sub p).leafRecords, (p ++ r.1).length < MAX_LEVEL) :
    ∃ bs, (AichTree.mk T).partBlockHashes partStart = some bs := by
  have hTr := receiver_of_complete hT hx
  rw [partBlockHashes_eq hTr h]
  have hsome : ∀ pos ∈ blockStarts (min PARTSIZE (n - partStart)) 0,
      ∃ b, blockHash partStart ⟨T⟩ pos = some b := by
    intro pos hpos
    obtain ⟨q, y, s', hq, hy, hc⟩ := exists_leaf_of_block h hT hpos
    unfold blockHash
    rw [findBlock_hash hTr h hc, if_pos (hreach (q, y) hq), hy]
    exact ⟨_, rfl⟩
  generalize blockStarts (min PARTSIZE (n - partStart)) 0 = l at hsome
  induction l with
  | nil => exact ⟨[], rfl⟩
  | cons a l ih =>
    obtain ⟨⟨b, hb⟩, hl⟩ := List.forall_mem_cons.mp hsome
    obtain ⟨bs, hbs⟩ := ih hl
    exact ⟨b :: bs, by rw [List.mapM_cons, hb, hbs]; rfl⟩

end

end PadMule.Proto.Aich
