import PadMule.Proto.AichShape

/-
  Complete AICH trees: every leaf hashed and every inner hash the pair of its children's.

  `from_leaves` succeeds exactly on lists of `leaf_count` hashes and builds the one
  complete tree with those leaves (`fromLeaves_eq`, `Complete.unique`).
-/

namespace PadMule.Proto.Aich

/-! ## Counting leaves -/

theorem ceilDiv_mul_add (k m d : Nat) (hd : 0 < d) :
    ceilDiv (d * k + m) d = k + ceilDiv m d := by
  unfold ceilDiv
  rw [Nat.mul_add_div hd, Nat.mul_add_mod, Nat.add_assoc]

theorem leafCount_mul_add (k m : Nat) :
    AichTree.leafCount (PARTSIZE * k + m) =
      ceilDiv PARTSIZE EMBLOCKSIZE * k + AichTree.leafCount m := by
  have hP : 0 < PARTSIZE := by decide
  simp only [AichTree.leafCount]
  rw [Nat.mul_add_div hP, Nat.mul_add_mod, Nat.mul_add, Nat.add_assoc]

theorem leafCount_of_le {n : Nat} (h : n ≤ PARTSIZE) :
    AichTree.leafCount n = ceilDiv n EMBLOCKSIZE := by
  by_cases he : n = PARTSIZE
  · subst he
    decide
  · have hlt : n < PARTSIZE := by omega
    simp only [AichTree.leafCount]
    rw [Nat.div_eq_of_lt hlt, Nat.mod_eq_of_lt hlt, Nat.mul_zero, Nat.zero_add]
    split
    · rfl
    · rename_i h0
      rw [Decidable.not_not.mp h0]
      decide

/-- A leaf counts for one. -/
theorem leafCount_leaf {n : Nat} (hpos : 0 < n) (hn : n ≤ baseFor n) :
    AichTree.leafCount n = 1 := by
  have hle := le_baseFor_iff.mp hn
  have := EMBLOCKSIZE_le_PARTSIZE
  rw [leafCount_of_le (by omega)]
  unfold ceilDiv
  by_cases he : n = EMBLOCKSIZE
  · subst he
    decide
  · rw [Nat.div_eq_of_lt (by omega), Nat.mod_eq_of_lt (by omega), if_neg (by omega)]

/-- An inner node has the leaves of its halves. -/
theorem leafCount_split {n : Nat} (s : Bool) (hn : baseFor n < n) :
    AichTree.leafCount n =
      AichTree.leafCount (leftSize n s) + AichTree.leafCount (n - leftSize n s) := by
  have hlt := leftSize_lt s hn
  obtain ⟨k, hk⟩ := baseFor_dvd_leftSize n s
  by_cases hP : n ≤ PARTSIZE
  · rw [leafCount_of_le hP, leafCount_of_le (by omega), leafCount_of_le (by omega)]
    rw [baseFor_of_le hP] at hk
    have hleft : ceilDiv (leftSize n s) EMBLOCKSIZE = k := by
      rw [hk]
      exact ceilDiv_mul_add k 0 EMBLOCKSIZE (by decide)
    have hn' : n = EMBLOCKSIZE * k + (n - leftSize n s) := by omega
    rw [hleft, ← ceilDiv_mul_add k _ EMBLOCKSIZE (by decide), ← hn']
  · rw [baseFor_of_lt (by omega)] at hk
    have hleft : AichTree.leafCount (leftSize n s) = ceilDiv PARTSIZE EMBLOCKSIZE * k := by
      rw [hk]
      exact leafCount_mul_add k 0
    have hn' : n = PARTSIZE * k + (n - leftSize n s) := by omega
    rw [hleft, ← leafCount_mul_add, ← hn']

namespace Node

/-! ## Complete trees -/

section

variable {pair : Hash20 → Hash20 → Hash20}

inductive Complete (pair : Hash20 → Hash20 → Hash20) : Nat → Bool → Node → Prop where
  | leaf {n : Nat} {s : Bool} (h : Hash20) (hn : n ≤ baseFor n) :
      Complete pair n s (.node (some h) n s (baseFor n) .absent .absent)
  | inner {n : Nat} {s : Bool} {l r : Node} {lh rh : Hash20} (hn : baseFor n < n)
      (hl : Complete pair (leftSize n s) true l) (hr : Complete pair (n - leftSize n s) false r)
      (hlh : l.hash = some lh) (hrh : r.hash = some rh) :
      Complete pair n s (.node (some (pair lh rh)) n s (baseFor n) l r)

theorem Complete.shaped {n : Nat} {s : Bool} {T : Node} (h : Complete pair n s T) :
    Shaped n s T := by
  induction h with
  | leaf _ hn => exact .leaf hn
  | inner hn _ _ _ _ ihl ihr => exact .inner hn ihl ihr

theorem Complete.present {n : Nat} {s : Bool} {T : Node} (h : Complete pair n s T) :
    T.isAbsent = false := by
  cases h <;> rfl

theorem Complete.dataSize {n : Nat} {s : Bool} {T : Node} (h : Complete pair n s T) :
    T.dataSize = n := h.shaped.dataSize h.present

theorem Complete.exists_hash {n : Nat} {s : Bool} {T : Node} (h : Complete pair n s T) :
    ∃ x, T.hash = some x := by
  cases h with
  | leaf x hn => exact ⟨x, rfl⟩
  | @inner _ _ _ _ lh rh => exact ⟨pair lh rh, rfl⟩

/-- The node a path leads to is complete at the extent of the path. -/
theorem Complete.sub {n start size : Nat} {s s' : Bool} {p : List Bool} {T : Node}
    (h : Complete pair n s T) (hc : Covers n s p start size s') :
    Complete pair size s' (T.sub p) := by
  induction hc generalizing T with
  | here n s => rwa [sub_nil]
  | left hin _ ih =>
    cases h with
    | leaf _ hn => omega
    | inner _ hl _ _ _ => exact ih hl
  | right hin _ ih =>
    cases h with
    | leaf _ hn => omega
    | inner _ _ hr _ _ => exact ih hr

/-- A complete tree lacks no node, so nothing grows. -/
theorem Complete.grow {n : Nat} {s : Bool} {T : Node} (h : Complete pair n s T) {p : List Bool}
    (hp : (T.sub p).isAbsent = false) : T.grow p = T := by
  induction p generalizing n s T with
  | nil => cases T <;> rfl
  | cons d p ih =>
    cases h with
    | leaf x hn => cases d <;> simp [Node.sub, isAbsent] at hp
    | @inner _ _ l r _ _ hn hl hr _ _ =>
      have hlp := hl.present
      have hrp := hr.present
      cases l with
      | absent => cases hlp
      | node =>
        cases r with
        | absent => cases hrp
        | node =>
          cases d
          · simp only [Node.grow, orNew, ih hr hp]
          · simp only [Node.grow, orNew, ih hl hp]

/-! ## Leaves -/

/-- The leaves with their root paths, left to right. -/
def leafRecords : Node → List (List Bool × Hash20)
  | .absent => []
  | .node h _ _ _ .absent .absent => (h.map fun x => ([], x)).toList
  | .node _ _ _ _ l r =>
    (leafRecords l).map (Prod.map (true :: ·) id) ++
      (leafRecords r).map (Prod.map (false :: ·) id)

def leafHashes (t : Node) : List Hash20 := t.leafRecords.map Prod.snd

theorem leafRecords_inner {h : Option Hash20} {n : Nat} {s : Bool} {b : Nat} {l r : Node}
    (hl : l.isAbsent = false) :
    leafRecords (.node h n s b l r) =
      (leafRecords l).map (Prod.map (true :: ·) id) ++
        (leafRecords r).map (Prod.map (false :: ·) id) := by
  cases l with
  | absent => cases hl
  | node => rfl

theorem leafHashes_inner {h : Option Hash20} {n : Nat} {s : Bool} {b : Nat} {l r : Node}
    (hl : l.isAbsent = false) :
    leafHashes (.node h n s b l r) = leafHashes l ++ leafHashes r := by
  simp only [leafHashes]
  rw [leafRecords_inner hl, List.map_append, List.map_map, List.map_map]
  rfl

theorem Complete.length_leafHashes {n : Nat} {s : Bool} {T : Node} (h : Complete pair n s T)
    (hpos : 0 < n) : T.leafHashes.length = AichTree.leafCount n := by
  induction h with
  | leaf x hn => rw [leafCount_leaf hpos hn]; rfl
  | @inner n s l r lh rh hn hl hr _ _ ihl ihr =>
    have hlt := leftSize_lt s hn
    rw [leafHashes_inner hl.present, List.length_append, ihl (leftSize_pos s hn),
      ihr (by omega), ← leafCount_split s hn]

/-- A complete tree is determined by its leaves. -/
theorem Complete.unique {n : Nat} {s : Bool} {T T' : Node} (h : Complete pair n s T)
    (h' : Complete pair n s T') (hpos : 0 < n) (he : T.leafHashes = T'.leafHashes) : T = T' := by
  induction h generalizing T' with
  | leaf x hn =>
    cases h' with
    | leaf y _ =>
      have hxy : x = y := by simpa [leafHashes, leafRecords] using he
      rw [hxy]
    | inner hn' => omega
  | @inner n s l r lh rh hn hl hr hlh hrh ihl ihr =>
    cases h' with
    | leaf y hn' => omega
    | @inner _ _ l' r' lh' rh' _ hl' hr' hlh' hrh' =>
      have hlt := leftSize_lt s hn
      have hposl := leftSize_pos s hn
      rw [leafHashes_inner hl.present, leafHashes_inner hl'.present] at he
      obtain ⟨hel, her⟩ := List.append_inj he
        ((hl.length_leafHashes hposl).trans (hl'.length_leafHashes hposl).symm)
      have hll := ihl hl' hposl hel
      have hrr := ihr hr' (by omega) her
      subst hll hrr
      rw [Option.some.inj (hlh.symm.trans hlh'), Option.some.inj (hrh.symm.trans hrh')]

/-! ## `from_leaves` -/

@[simp] theorem isAbsent_recalculate (pair : Hash20 → Hash20 → Hash20) (b : Bool) (t : Node) :
    (recalculate pair b t).2.isAbsent = t.isAbsent := by
  cases t with
  | absent => rfl
  | node h n s base l r =>
    unfold recalculate
    dsimp only
    split
    · rfl
    · split
      · rfl
      · split
        · rfl
        · split
          · rfl
          · split <;> rfl

/-- Loading consumes exactly the leaves of the node, and recalculating completes it. -/
theorem load_complete (pair : Hash20 → Hash20 → Hash20) (n : Nat) (s : Bool) :
    0 < n → ∀ hs rest : List Hash20, hs.length = AichTree.leafCount n →
      ∃ raw T, loadLowestLevel n s (hs ++ rest) = some (raw, rest) ∧
        recalculate pair false raw = (true, T) ∧ Complete pair n s T ∧ T.leafHashes = hs := by
  induction n, s using split_induction with
  | leaf n s hn =>
    intro hpos hs rest hlen
    rw [leafCount_leaf hpos hn] at hlen
    obtain ⟨x, rfl⟩ := List.length_eq_one_iff.mp hlen
    refine ⟨.node (some x) n s (baseFor n) .absent .absent, _, ?_, rfl, .leaf x hn, rfl⟩
    rw [loadLowestLevel.eq_def, dif_pos hn]
    rfl
  | inner n s hn ihl ihr =>
    intro hpos hs rest hlen
    have hlt := leftSize_lt s hn
    have hposl := leftSize_pos s hn
    rw [leafCount_split s hn] at hlen
    obtain ⟨rl, tl, hloadl, hrecl, hcl, hhl⟩ :=
      ihl hposl (hs.take (AichTree.leafCount (leftSize n s)))
        (hs.drop (AichTree.leafCount (leftSize n s)) ++ rest)
        (by rw [List.length_take]; omega)
    obtain ⟨rr, tr, hloadr, hrecr, hcr, hhr⟩ :=
      ihr (by omega) (hs.drop (AichTree.leafCount (leftSize n s))) rest
        (by rw [List.length_drop]; omega)
    obtain ⟨lh, hlh⟩ := hcl.exists_hash
    obtain ⟨rh, hrh⟩ := hcr.exists_hash
    refine ⟨.node none n s (baseFor n) rl rr,
      .node (some (pair lh rh)) n s (baseFor n) tl tr, ?_, ?_,
      .inner hn hcl hcr hlh hrh, ?_⟩
    · rw [loadLowestLevel.eq_def, dif_neg (by omega)]
      rw [← List.append_assoc, List.take_append_drop] at hloadl
      dsimp only
      rw [hloadl]
      dsimp only [Option.bind_eq_bind, Option.bind_some]
      rw [hloadr]
      rfl
    · have hpl : rl.isAbsent = false := by
        rw [← isAbsent_recalculate pair false rl, hrecl]
        exact hcl.present
      have hpr : rr.isAbsent = false := by
        rw [← isAbsent_recalculate pair false rr, hrecr]
        exact hcr.present
      simp [recalculate, hpl, hpr, hrecl, hrecr, hlh, hrh]
    · rw [leafHashes_inner hcl.present, hhl, hhr, List.take_append_drop]

end

end Node

open Node

theorem fromLeaves_eq (pair : Hash20 → Hash20 → Hash20) {n : Nat} {hs : List Hash20}
    (hpos : 0 < n) (hlen : hs.length = AichTree.leafCount n) :
    ∃ T, AichTree.fromLeaves pair n hs = some ⟨T⟩ ∧ Complete pair n true T ∧
      T.leafHashes = hs := by
  obtain ⟨raw, T, hload, hrec, hT, hhs⟩ := load_complete pair n true hpos hs [] hlen
  obtain ⟨x, hx⟩ := hT.exists_hash
  refine ⟨T, ?_, hT, hhs⟩
  rw [List.append_nil] at hload
  unfold AichTree.fromLeaves
  rw [if_neg (by omega), if_neg (by omega), hload]
  simp [hrec, hx]

/-- What `from_leaves` returns is the complete tree of its leaves. -/
theorem complete_of_fromLeaves {pair : Hash20 → Hash20 → Hash20} {n : Nat} {hs : List Hash20}
    {T : AichTree} (h : AichTree.fromLeaves pair n hs = some T) :
    0 < n ∧ Complete pair n true T.root ∧ T.root.leafHashes = hs := by
  by_cases hlen : hs.length = AichTree.leafCount n
  · by_cases hpos : n = 0
    · simp [AichTree.fromLeaves, hpos] at h
    · obtain ⟨T', hT', hc, hh⟩ := fromLeaves_eq pair (Nat.pos_of_ne_zero hpos) hlen
      rw [hT'] at h
      cases h
      exact ⟨Nat.pos_of_ne_zero hpos, hc, hh⟩
  · simp [AichTree.fromLeaves, hlen] at h

/-- A complete tree is rebuilt from its leaves. -/
theorem fromLeaves_leafHashes {pair : Hash20 → Hash20 → Hash20} {n : Nat} {T : Node}
    (hpos : 0 < n) (hT : Complete pair n true T) :
    AichTree.fromLeaves pair n T.leafHashes = some ⟨T⟩ := by
  obtain ⟨T', hT', hc, hh⟩ := fromLeaves_eq pair hpos (hT.length_leafHashes hpos)
  rw [hT', hc.unique hT hpos hh]

end PadMule.Proto.Aich
