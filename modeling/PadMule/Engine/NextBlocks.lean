import PadMule.Engine.BlockReceiver
import PadMule.Engine.PartFile

/-
  The block allocator of `mule-engine/src/part_file.rs`.

  A block is what a gap leaves of one cell of a part's EMBLOCKSIZE lattice (`IsPiece`).
  Pieces of a tidy gap list that share a byte are equal, so the allocator's walk over a
  part steps from piece to piece. `Allocates` says what a call returns: pieces of the
  wanted parts, free of what is taken, apart from each other, and all of them unless the
  call is full. `block_allocator` says it in the terms of the callers; `mem_offers` is the
  other consequence: with nothing reserved every missing byte of an available part is offered.
-/

namespace PadMule.Engine

open Spans Files

/-- Once the file is within this many bytes of complete, reserved blocks are raced. -/
def ENDGAME_LIMIT : Nat := 4 * EMBLOCKSIZE

def Block.span (b : Block) : Span Nat := ⟨b.1, b.2⟩

/-- `rs < end && re > start`. -/
def overlaps (b r : Block) : Bool := r.1 < b.2 && b.1 < r.2

namespace PartFile

/-- Bytes still missing from `part`. -/
def partMissing (pf : PartFile) (part : Nat) : Nat :=
  let start := part * PARTSIZE
  let stop := start + partSize part pf.size
  ((pf.gaps.filter fun g => g.start < stop && start < g.stop).map fun g =>
    min g.stop stop - max g.start start).sum

/-- Parts that still have missing bytes, most-complete-first. -/
def wantedParts (pf : PartFile) : List Nat :=
  let parts := ((List.range (dataPartCount pf.size)).filter fun p => !pf.isPartComplete p).map
    fun p => (p, pf.partMissing p)
  (parts.insertionSort fun a b => a.2 < b.2 ∨ (a.2 = b.2 ∧ a.1 ≤ b.1)).map Prod.fst

def partEnd (pf : PartFile) (part : Nat) : Nat := part * PARTSIZE + partSize part pf.size

/-- End of the lattice cell `start` lies in. -/
def cellEnd (part start : Nat) : Nat :=
  part * PARTSIZE + EMBLOCKSIZE * ((start - part * PARTSIZE) / EMBLOCKSIZE + 1)

/-- The block at the first gap that still intersects `[cursor, part end)`, clamped to the
    lattice cell, the gap and the part. -/
def blockAfter (pf : PartFile) (part cursor : Nat) : Option Block :=
  (pf.gaps.find? fun g => g.start < pf.partEnd part && cursor < g.stop).map fun g =>
    let start := max cursor g.start
    (start, min (min g.stop (cellEnd part start)) (pf.partEnd part))

/-- The loop of `next_block_in_part`: the first block from `cursor` on that no reserved range
    meets. Each turn moves `cursor` on by a byte at least. -/
def nextBlockFrom (pf : PartFile) (part : Nat) (reserved : List Block) :
    Nat → Nat → Option Block
  | 0, _ => none
  | turns + 1, cursor =>
    if cursor < pf.partEnd part then
      match pf.blockAfter part cursor with
      | none => none
      | some b =>
        if b.1 ≥ b.2 then none
        else if reserved.any (overlaps b) then pf.nextBlockFrom part reserved turns b.2
        else some b
    else none

/-- `next_block_in_part`. -/
def nextBlockInPart (pf : PartFile) (part : Nat) (reserved : List Block) : Option Block :=
  pf.nextBlockFrom part reserved (partSize part pf.size) (part * PARTSIZE)

/-- The `while` of `next_blocks` over one part, whose next block is `next`; `n` blocks are
    still wanted. -/
def drain (next : List Block → Option Block) (taken : List Block) : Nat → List Block
  | 0 => []
  | n + 1 =>
    match next taken with
    | some b => b :: drain next (taken ++ [b]) n
    | none => []

def drainPart (pf : PartFile) (part : Nat) (taken : List Block) (n : Nat) : List Block :=
  drain (pf.nextBlockInPart part) taken n

/-- The `for` of `next_blocks` over the wanted parts. -/
def drainParts (pf : PartFile) (available : Nat → Bool) :
    List Nat → List Block → Nat → List Block
  | [], _, _ => []
  | part :: parts, taken, n =>
    if available part then
      let out := pf.drainPart part taken n
      out ++ pf.drainParts available parts (taken ++ out) (n - out.length)
    else pf.drainParts available parts taken n

/-- The wanted parts in the order they are drained: forward for a preview, else rarest
    first. -/
def orderedParts (pf : PartFile) (rarity : Nat → Nat) (preview : Bool) : List Nat :=
  if preview then pf.wantedParts.insertionSort fun p q => p ≤ q
  else pf.wantedParts.insertionSort fun p q => rarity p ≤ rarity q

/-- `next_blocks`: up to `max` blocks for one source. -/
def nextBlocks (pf : PartFile) (available : Nat → Bool) (reserved : List Block) (max : Nat)
    (rarity : Nat → Nat) (endgame preview : Bool) : List Block :=
  pf.drainParts available (pf.orderedParts rarity preview) (if endgame then [] else reserved) max

end PartFile

/-! ## Pieces -/

/-- What a gap leaves of one lattice cell of `part`. -/
structure IsPiece (pf : PartFile) (part : Nat) (b : Block) : Prop where
  nonempty : b.1 < b.2
  exists_cell : ∃ g ∈ pf.gaps, ∃ k, b.1 = max g.start (part * PARTSIZE + k * EMBLOCKSIZE) ∧
    b.2 = min (min g.stop (part * PARTSIZE + (k + 1) * EMBLOCKSIZE))
      (part * PARTSIZE + partSize part pf.size)

theorem overlaps_iff {b r : Block} : overlaps b r = true ↔ r.1 < b.2 ∧ b.1 < r.2 := by
  simp [overlaps]

theorem overlaps_eq_false {b r : Block} : overlaps b r = false ↔ b.2 ≤ r.1 ∨ r.2 ≤ b.1 := by
  rw [← Bool.not_eq_true, overlaps_iff]
  omega

variable {pf : PartFile}

theorem partSize_le (part size : Nat) : partSize part size ≤ PARTSIZE := Nat.min_le_right ..

namespace IsPiece

theorem part_le {part : Nat} {b : Block} (h : IsPiece pf part b) :
    part * PARTSIZE ≤ b.1 ∧ b.2 ≤ part * PARTSIZE + partSize part pf.size := by
  obtain ⟨g, -, k, h₁, h₂⟩ := h.exists_cell
  omega

theorem missing {part : Nat} {b : Block} (h : IsPiece pf part b) {x : Nat} (h₁ : b.1 ≤ x)
    (h₂ : x < b.2) : x ∈ cover pf.gaps := by
  obtain ⟨g, hg, k, hstart, hstop⟩ := h.exists_cell
  exact ⟨g, hg, by omega, by omega⟩

/-- The part is the one its bytes lie in. -/
theorem part_eq {part : Nat} {b : Block} (h : IsPiece pf part b) {x : Nat} (h₁ : b.1 ≤ x)
    (h₂ : x < b.2) : part = x / PARTSIZE := by
  have hin := h.part_le
  have hsize := partSize_le part pf.size
  have hpos : 0 < PARTSIZE := by decide
  refine (Nat.div_eq_of_lt_le (by omega) ?_).symm
  rw [Nat.succ_mul]
  omega

/-- Pieces that share a byte are one. -/
theorem eq_of_meet (hok : pf.Ok) {part part' : Nat} {b c : Block} (hb : IsPiece pf part b)
    (hc : IsPiece pf part' c) {x : Nat} (hb₁ : b.1 ≤ x) (hb₂ : x < b.2) (hc₁ : c.1 ≤ x)
    (hc₂ : x < c.2) : b = c := by
  have hpart : part = part' := (hb.part_eq hb₁ hb₂).trans (hc.part_eq hc₁ hc₂).symm
  subst hpart
  obtain ⟨g, hg, k, hgb₁, hgb₂⟩ := hb.exists_cell
  obtain ⟨g', hg', k', hgc₁, hgc₂⟩ := hc.exists_cell
  have hgap : g = g' := hok.tidy.eq_of_mem hg hg' (x := x) ⟨by omega, by omega⟩
    ⟨by omega, by omega⟩
  have hcell : k = k' := by
    have hpos : 0 < EMBLOCKSIZE := by decide
    have hk : ∀ {j : Nat}, part * PARTSIZE + j * EMBLOCKSIZE ≤ x →
        x < part * PARTSIZE + (j + 1) * EMBLOCKSIZE → j = (x - part * PARTSIZE) / EMBLOCKSIZE :=
      fun hlo hhi => (Nat.div_eq_of_lt_le (by omega) (by omega)).symm
    exact (hk (by omega) (by omega)).trans (hk (by omega) (by omega)).symm
  subst hgap hcell
  exact Prod.ext (hgb₁.trans hgc₁.symm) (hgb₂.trans hgc₂.symm)

theorem eq_of_overlaps (hok : pf.Ok) {part part' : Nat} {b c : Block} (hb : IsPiece pf part b)
    (hc : IsPiece pf part' c) (h : overlaps b c = true) : b = c := by
  rw [overlaps_iff] at h
  have hbne := hb.nonempty
  have hcne := hc.nonempty
  have hmeet := @eq_of_meet pf hok part part' b c hb hc (max b.1 c.1)
  exact hmeet (by omega) (by omega) (by omega) (by omega)

end IsPiece

/-- A missing byte lies in a piece of its part. -/
theorem exists_piece {part x : Nat} (hx : x ∈ cover pf.gaps)
    (hpart : x ∈ PartFile.partBytes part pf.size) :
    ∃ b, IsPiece pf part b ∧ b.1 ≤ x ∧ x < b.2 := by
  obtain ⟨g, hg, hlo, hhi⟩ := hx
  rw [PartFile.partBytes_eq_Ico] at hpart
  obtain ⟨hstart, hstop⟩ := hpart
  have hpos : 0 < EMBLOCKSIZE := by decide
  let k := (x - part * PARTSIZE) / EMBLOCKSIZE
  have hk₁ : k * EMBLOCKSIZE ≤ x - part * PARTSIZE := Nat.div_mul_le_self ..
  have hk₂ : x - part * PARTSIZE < (k + 1) * EMBLOCKSIZE := by
    rw [Nat.mul_comm (k + 1)]
    exact Nat.lt_mul_div_succ _ hpos
  refine ⟨(max g.start (part * PARTSIZE + k * EMBLOCKSIZE),
    min (min g.stop (part * PARTSIZE + (k + 1) * EMBLOCKSIZE))
      (part * PARTSIZE + partSize part pf.size)), ⟨?_, g, hg, k, rfl, rfl⟩, ?_, ?_⟩
  · dsimp only; omega
  · dsimp only; omega
  · dsimp only; omega

/-! ## The walk over a part -/

/-- No piece of the part straddles `cursor`. -/
def Aligned (pf : PartFile) (part cursor : Nat) : Prop :=
  ∀ b, IsPiece pf part b → b.2 ≤ cursor ∨ cursor ≤ b.1

theorem aligned_start (pf : PartFile) (part : Nat) : Aligned pf part (part * PARTSIZE) :=
  fun _ hb => Or.inr hb.part_le.1

theorem Aligned.after (hok : pf.Ok) {part : Nat} {b : Block} (hb : IsPiece pf part b) :
    Aligned pf part b.2 := by
  intro c hc
  by_contra hstraddles
  have hbne := hb.nonempty
  have hover : overlaps c b = true := by
    rw [overlaps_iff]
    omega
  have heq := hc.eq_of_overlaps hok hb hover
  subst heq
  omega

/-- From an aligned cursor the next block is the next piece. -/
theorem blockAfter_some (hok : pf.Ok) {part cursor : Nat} {b : Block}
    (hcursor : part * PARTSIZE ≤ cursor) (hlt : cursor < pf.partEnd part)
    (halign : Aligned pf part cursor) (h : pf.blockAfter part cursor = some b) :
    IsPiece pf part b ∧ cursor ≤ b.1 ∧ ∀ c, IsPiece pf part c → cursor ≤ c.1 → b.1 ≤ c.1 := by
  obtain ⟨g, hfind, rfl⟩ := Option.map_eq_some_iff.mp h
  obtain ⟨hmeets, before, behind, hgaps, hbefore⟩ := List.find?_eq_some_iff_append.mp hfind
  have hg : g ∈ pf.gaps := List.mem_of_find?_eq_some hfind
  simp only [Bool.and_eq_true, decide_eq_true_eq] at hmeets
  have hgne := hok.tidy.nonempty g hg
  have hpos : 0 < EMBLOCKSIZE := by decide
  -- the lattice cell of the block's first byte
  obtain ⟨start, hstart⟩ : ∃ start, max cursor g.start = start := ⟨_, rfl⟩
  obtain ⟨k, hk⟩ : ∃ k, (start - part * PARTSIZE) / EMBLOCKSIZE = k := ⟨_, rfl⟩
  have hlo : k * EMBLOCKSIZE ≤ start - part * PARTSIZE := hk ▸ Nat.div_mul_le_self ..
  have hhi : start - part * PARTSIZE < (k + 1) * EMBLOCKSIZE := by
    rw [← hk, Nat.mul_comm (_ + 1)]
    exact Nat.lt_mul_div_succ _ hpos
  have hcell : PartFile.cellEnd part start = part * PARTSIZE + (k + 1) * EMBLOCKSIZE := by
    rw [PartFile.cellEnd, hk, Nat.mul_comm EMBLOCKSIZE]
  unfold PartFile.partEnd at hlt hmeets hbefore ⊢
  have hpiece : IsPiece pf part (max g.start (part * PARTSIZE + k * EMBLOCKSIZE),
      min (min g.stop (part * PARTSIZE + (k + 1) * EMBLOCKSIZE))
        (part * PARTSIZE + partSize part pf.size)) :=
    ⟨by dsimp only; omega, g, hg, k, rfl, rfl⟩
  have hends := halign _ hpiece
  dsimp only at hends ⊢
  rw [hstart, hcell]
  have heq : start = max g.start (part * PARTSIZE + k * EMBLOCKSIZE) := by omega
  rw [← heq] at hpiece
  refine ⟨hpiece, by omega, fun c hc hle => ?_⟩
  -- its gap is the one found or a later one
  obtain ⟨g', hg', k', hc₁, hc₂⟩ := hc.exists_cell
  have hne := hc.nonempty
  rw [hgaps] at hg'
  rcases List.mem_append.mp hg' with hin | hin
  · have hmiss := hbefore g' hin
    simp only [Bool.not_and, Bool.or_eq_true, Bool.not_eq_true', decide_eq_false_iff_not] at hmiss
    omega
  · have hsorted := hok.tidy.sorted
    rw [hgaps] at hsorted
    rcases List.mem_cons.mp hin with rfl | hin
    · omega
    · have := (List.pairwise_cons.mp (List.pairwise_append.mp hsorted).2.1).1 g' hin
      omega

/-- Without a next block no piece is left. -/
theorem blockAfter_none {part cursor : Nat} (h : pf.blockAfter part cursor = none) {b : Block}
    (hb : IsPiece pf part b) : b.1 < cursor := by
  rw [PartFile.blockAfter, Option.map_eq_none_iff, List.find?_eq_none] at h
  obtain ⟨g, hg, k, hb₁, hb₂⟩ := hb.exists_cell
  have hmiss := h g hg
  rw [Bool.and_eq_true, decide_eq_true_eq, decide_eq_true_eq, not_and, PartFile.partEnd] at hmiss
  have hne := hb.nonempty
  have hstop := hmiss (by omega)
  omega

theorem no_piece_past {part cursor : Nat} (hend : pf.partEnd part ≤ cursor) {b : Block}
    (hb : IsPiece pf part b) : b.1 < cursor := by
  have hle := hb.part_le.2
  have hne := hb.nonempty
  unfold PartFile.partEnd at hend
  omega

/-- The walk stops at a free piece. -/
theorem nextBlockFrom_some (hok : pf.Ok) {part : Nat} {reserved : List Block} {turns cursor : Nat}
    (hcursor : part * PARTSIZE ≤ cursor) (halign : Aligned pf part cursor) {b : Block}
    (h : pf.nextBlockFrom part reserved turns cursor = some b) :
    IsPiece pf part b ∧ ∀ r ∈ reserved, overlaps b r = false := by
  induction turns generalizing cursor with
  | zero => cases h
  | succ turns ih =>
    unfold PartFile.nextBlockFrom at h
    split_ifs at h with hlt
    cases hafter : pf.blockAfter part cursor with
    | none =>
      rw [hafter] at h
      cases h
    | some c =>
      obtain ⟨hpiece, hle, -⟩ := blockAfter_some hok hcursor hlt halign hafter
      have hne := hpiece.nonempty
      rw [hafter] at h
      dsimp only at h
      rw [if_neg (by omega)] at h
      split_ifs at h with hany
      · exact ih (by omega) (.after hok hpiece) h
      · cases h
        rw [Bool.not_eq_true, List.any_eq_false] at hany
        exact ⟨hpiece, fun r hr => Bool.eq_false_iff.mpr (hany r hr)⟩

/-- A walk that finds nothing has met a reserved range at every piece. -/
theorem nextBlockFrom_none (hok : pf.Ok) {part : Nat} {reserved : List Block} {turns cursor : Nat}
    (hcursor : part * PARTSIZE ≤ cursor) (halign : Aligned pf part cursor)
    (hturns : pf.partEnd part - cursor ≤ turns)
    (h : pf.nextBlockFrom part reserved turns cursor = none) {b : Block} (hb : IsPiece pf part b)
    (hle : cursor ≤ b.1) : ∃ r ∈ reserved, overlaps b r = true := by
  induction turns generalizing cursor with
  | zero => exact absurd hle (Nat.not_le.mpr (no_piece_past (by omega) hb))
  | succ turns ih =>
    unfold PartFile.nextBlockFrom at h
    split_ifs at h with hlt
    · cases hafter : pf.blockAfter part cursor with
      | none => exact absurd hle (Nat.not_le.mpr (blockAfter_none hafter hb))
      | some c =>
        obtain ⟨hpiece, hle', hfirst⟩ := blockAfter_some hok hcursor hlt halign hafter
        have hne := hpiece.nonempty
        rw [hafter] at h
        dsimp only at h
        rw [if_neg (by omega)] at h
        split_ifs at h with hany
        by_cases hbc : b = c
        · exact hbc ▸ List.any_eq_true.mp hany
        -- the skipped piece is the first one, so `b` starts behind it
        · refine ih (by omega) (.after hok hpiece) (by omega) h ?_
          rcases Aligned.after hok hpiece b hb with hstop | hstart
          · have := hfirst b hb hle
            have := hb.nonempty
            exact absurd (hb.eq_of_overlaps hok hpiece (overlaps_iff.mpr ⟨by omega, by omega⟩)) hbc
          · exact hstart
    · exact absurd hle (Nat.not_le.mpr (no_piece_past (by omega) hb))

theorem nextBlockInPart_some (hok : pf.Ok) {part : Nat} {reserved : List Block} {b : Block}
    (h : pf.nextBlockInPart part reserved = some b) :
    IsPiece pf part b ∧ ∀ r ∈ reserved, overlaps b r = false :=
  nextBlockFrom_some hok le_rfl (aligned_start pf part) h

theorem nextBlockInPart_none (hok : pf.Ok) {part : Nat} {reserved : List Block}
    (h : pf.nextBlockInPart part reserved = none) {b : Block} (hb : IsPiece pf part b) :
    ∃ r ∈ reserved, overlaps b r = true :=
  nextBlockFrom_none hok le_rfl (aligned_start pf part)
    (by unfold PartFile.partEnd; omega) h hb hb.part_le.1

/-! ## What a call returns -/

/-- `out` are at most `n` pieces of the `wanted` parts, free of `taken` and of each other; if
    there are fewer, every piece of these parts meets something taken or returned. -/
structure Allocates (pf : PartFile) (wanted : Set Nat) (taken : List Block) (n : Nat)
    (out : List Block) : Prop where
  piece : ∀ b ∈ out, ∃ part ∈ wanted, IsPiece pf part b
  free : ∀ b ∈ out, ∀ r ∈ taken, overlaps b r = false
  apart : out.Pairwise fun a b => overlaps b a = false
  length_le : out.length ≤ n
  exhaustive : out.length < n → ∀ part ∈ wanted, ∀ b, IsPiece pf part b →
    ∃ r ∈ taken ++ out, overlaps b r = true

namespace Allocates

theorem nil (taken : List Block) (n : Nat) : Allocates pf ∅ taken n [] where
  piece := fun _ hb => absurd hb List.not_mem_nil
  free := fun _ hb => absurd hb List.not_mem_nil
  apart := List.Pairwise.nil
  length_le := Nat.zero_le n
  exhaustive := fun _ _ hpart => absurd hpart (Set.notMem_empty _)

/-- What a second call adds behind a first one. -/
theorem append {wanted wanted' : Set Nat} {taken out out' : List Block} {n : Nat}
    (h : Allocates pf wanted taken n out)
    (h' : Allocates pf wanted' (taken ++ out) (n - out.length) out') :
    Allocates pf (wanted ∪ wanted') taken n (out ++ out') where
  piece := by
    intro b hb
    rcases List.mem_append.mp hb with hb | hb
    · obtain ⟨part, hpart, hpiece⟩ := h.piece b hb
      exact ⟨part, Or.inl hpart, hpiece⟩
    · obtain ⟨part, hpart, hpiece⟩ := h'.piece b hb
      exact ⟨part, Or.inr hpart, hpiece⟩
  free := by
    intro b hb r hr
    rcases List.mem_append.mp hb with hb | hb
    · exact h.free b hb r hr
    · exact h'.free b hb r (List.mem_append_left _ hr)
  apart := List.pairwise_append.mpr ⟨h.apart, h'.apart, fun r hr b hb =>
    h'.free b hb r (List.mem_append_right _ hr)⟩
  length_le := by
    have := h.length_le
    have := h'.length_le
    rw [List.length_append]
    omega
  exhaustive := by
    intro hlt part hpart b hb
    rw [List.length_append] at hlt
    have hassoc : taken ++ (out ++ out') = taken ++ out ++ out' := (List.append_assoc ..).symm
    rw [hassoc]
    rcases hpart with hpart | hpart
    · obtain ⟨r, hr, hover⟩ := h.exhaustive (by omega) part hpart b hb
      exact ⟨r, List.mem_append_left _ hr, hover⟩
    · exact h'.exhaustive (by omega) part hpart b hb

theorem drainPart (hok : pf.Ok) (part : Nat) (taken : List Block) (n : Nat) :
    Allocates pf {part} taken n (pf.drainPart part taken n) := by
  unfold PartFile.drainPart
  induction n generalizing taken with
  | zero =>
    rw [PartFile.drain]
    exact ⟨fun _ hb => absurd hb List.not_mem_nil, fun _ hb => absurd hb List.not_mem_nil,
      List.Pairwise.nil, le_rfl, fun hlt => absurd hlt (Nat.lt_irrefl _)⟩
  | succ n ih =>
    rw [PartFile.drain]
    cases hnext : pf.nextBlockInPart part taken with
    | none =>
      refine ⟨fun _ hb => absurd hb List.not_mem_nil, fun _ hb => absurd hb List.not_mem_nil,
        List.Pairwise.nil, Nat.zero_le _, fun _ p hp b hb => ?_⟩
      rw [Set.mem_singleton_iff.mp hp] at hb
      rw [List.append_nil]
      exact nextBlockInPart_none hok hnext hb
    | some b =>
      obtain ⟨hpiece, hfree⟩ := nextBlockInPart_some hok hnext
      have hrest := ih (taken ++ [b])
      refine ⟨?_, ?_, ?_, ?_, ?_⟩
      · exact List.forall_mem_cons.mpr ⟨⟨part, rfl, hpiece⟩, hrest.piece⟩
      · exact List.forall_mem_cons.mpr ⟨hfree, fun c hc r hr =>
          hrest.free c hc r (List.mem_append_left _ hr)⟩
      · exact List.pairwise_cons.mpr ⟨fun c hc =>
          hrest.free c hc b (List.mem_append_right _ (List.mem_singleton_self b)), hrest.apart⟩
      · exact Nat.succ_le_succ hrest.length_le
      · intro hlt p hp c hc
        obtain ⟨r, hr, hover⟩ := hrest.exhaustive (Nat.lt_of_succ_lt_succ hlt) p hp c hc
        rw [List.append_assoc] at hr
        exact ⟨r, hr, hover⟩

theorem drainParts (hok : pf.Ok) (available : Nat → Bool) (parts : List Nat) (taken : List Block)
    (n : Nat) :
    Allocates pf {p | p ∈ parts ∧ available p = true} taken n
      (pf.drainParts available parts taken n) := by
  induction parts generalizing taken n with
  | nil =>
    have hempty : {p | p ∈ ([] : List Nat) ∧ available p = true} = (∅ : Set Nat) := by
      ext p
      simp
    rw [hempty]
    exact nil taken n
  | cons part parts ih =>
    unfold PartFile.drainParts
    split
    · rename_i hav
      have hwanted : {p | p ∈ part :: parts ∧ available p = true} =
          {part} ∪ {p | p ∈ parts ∧ available p = true} := by
        ext p
        simp only [List.mem_cons, Set.mem_ofPred_eq, Set.mem_union, Set.mem_singleton_iff]
        constructor
        · rintro ⟨rfl | hp, hp'⟩
          · exact Or.inl rfl
          · exact Or.inr ⟨hp, hp'⟩
        · rintro (rfl | ⟨hp, hp'⟩)
          · exact ⟨Or.inl rfl, hav⟩
          · exact ⟨Or.inr hp, hp'⟩
      rw [hwanted]
      exact (drainPart hok part taken n).append (ih _ _)
    · rename_i hav
      have hwanted : {p | p ∈ part :: parts ∧ available p = true} =
          {p | p ∈ parts ∧ available p = true} := by
        ext p
        simp only [List.mem_cons, Set.mem_ofPred_eq]
        constructor
        · rintro ⟨rfl | hp, hp'⟩
          · exact absurd hp' hav
          · exact ⟨hp, hp'⟩
        · rintro ⟨hp, hp'⟩
          exact ⟨Or.inr hp, hp'⟩
      rw [hwanted]
      exact ih taken n

end Allocates

theorem mem_wantedParts {part : Nat} :
    part ∈ pf.wantedParts ↔ part < dataPartCount pf.size ∧ pf.isPartComplete part = false := by
  have hperm := fun (l : List (Nat × Nat)) => (List.perm_insertionSort
    (fun a b => a.2 < b.2 ∨ (a.2 = b.2 ∧ a.1 ≤ b.1)) l).mem_iff (a := (part, pf.partMissing part))
  simp only [PartFile.wantedParts, List.mem_map, Prod.exists, exists_and_right, exists_eq_right]
  constructor
  · rintro ⟨m, hm⟩
    rw [(List.perm_insertionSort ..).mem_iff, List.mem_map] at hm
    obtain ⟨p, hp, heq⟩ := hm
    cases heq
    simpa using hp
  · intro h
    refine ⟨pf.partMissing part, (hperm _).mpr (List.mem_map.mpr ⟨part, ?_, rfl⟩)⟩
    simpa using h

theorem mem_orderedParts {part : Nat} {rarity : Nat → Nat} {preview : Bool} :
    part ∈ pf.orderedParts rarity preview ↔
      part < dataPartCount pf.size ∧ pf.isPartComplete part = false := by
  unfold PartFile.orderedParts
  split <;> rw [(List.perm_insertionSort ..).mem_iff, mem_wantedParts]

/-- The parts of the file that a source has. -/
def served (pf : PartFile) (available : Nat → Bool) : Set Nat :=
  {p | p < dataPartCount pf.size ∧ available p = true}

/-- `next_blocks` allocates pieces of the parts the source has. -/
theorem nextBlocks_allocates (hok : pf.Ok) (available : Nat → Bool) (reserved : List Block)
    (max : Nat) (rarity : Nat → Nat) (endgame preview : Bool) :
    Allocates pf (served pf available) (if endgame then [] else reserved) max
      (pf.nextBlocks available reserved max rarity endgame preview) := by
  have h := Allocates.drainParts hok available (pf.orderedParts rarity preview)
    (if endgame then [] else reserved) max
  refine ⟨fun b hb => ?_, h.free, h.apart, h.length_le, fun hlt part hpart b hb => ?_⟩
  · obtain ⟨part, ⟨hpart, hav⟩, hpiece⟩ := h.piece b hb
    exact ⟨part, ⟨(mem_orderedParts.mp hpart).1, hav⟩, hpiece⟩
  · refine h.exhaustive hlt part ⟨mem_orderedParts.mpr ⟨hpart.1, ?_⟩, hpart.2⟩ b hb
    -- a part with a piece is not complete
    rw [← Bool.not_eq_true, hok.isPartComplete_iff hpart.1]
    intro hcomplete
    have hbytes := hb.part_le
    refine hcomplete b.1 ?_ (hb.missing le_rfl hb.nonempty)
    rw [PartFile.partBytes_eq_Ico]
    exact ⟨hbytes.1, hb.nonempty.trans_le hbytes.2⟩

/-! ## Nothing is withheld -/

/-- Pieces apart from each other are at most as many as the missing bytes. -/
theorem length_le_missing {blocks : List Block}
    (hpiece : ∀ b ∈ blocks, ∃ part, IsPiece pf part b)
    (hapart : blocks.Pairwise fun a b => overlaps b a = false) :
    blocks.length ≤ pf.missing := by
  have hspans : Apart (blocks.map Block.span) := by
    unfold Apart
    rw [List.pairwise_map]
    refine hapart.imp fun {a b} hab => Set.disjoint_left.mpr fun x hxa hxb => ?_
    rw [overlaps_eq_false] at hab
    have ha : a.1 ≤ x ∧ x < a.2 := hxa
    have hb : b.1 ≤ x ∧ x < b.2 := hxb
    omega
  have hcover : cover (blocks.map Block.span) ⊆ cover pf.gaps := by
    rintro x ⟨s, hs, hlo, hhi⟩
    obtain ⟨b, hb, rfl⟩ := List.mem_map.mp hs
    obtain ⟨part, hp⟩ := hpiece b hb
    exact hp.missing hlo hhi
  have hlength : blocks.length ≤ total (blocks.map Block.span) := by
    rw [← List.length_map (f := Block.span)]
    refine length_le_total fun s hs => ?_
    obtain ⟨b, hb, rfl⟩ := List.mem_map.mp hs
    exact (hpiece b hb).choose_spec.nonempty
  exact hlength.trans ((total_le_of_cover hspans hcover).trans_eq (pf.missing_eq_total).symm)

/-- The part a byte of the file lies in. -/
theorem mem_partBytes_div {x : Nat} (hx : x < pf.size) :
    x ∈ PartFile.partBytes (x / PARTSIZE) pf.size ∧ x / PARTSIZE < dataPartCount pf.size := by
  have hpos : 0 < PARTSIZE := by decide
  have hlo : x / PARTSIZE * PARTSIZE ≤ x := Nat.div_mul_le_self ..
  have hhi : x < (x / PARTSIZE + 1) * PARTSIZE := by
    rw [Nat.mul_comm]
    exact Nat.lt_mul_div_succ _ hpos
  exact ⟨⟨hlo, hhi, hx⟩, PartFile.lt_dataPartCount.mpr (hlo.trans_lt hx)⟩

/-- With only pieces taken, a call that is not full leaves no missing byte of an available
    part out. -/
theorem Allocates.covers (hok : pf.Ok) {available : Nat → Bool} {taken out : List Block} {n : Nat}
    (h : Allocates pf (served pf available) taken n out) (hlt : out.length < n)
    (htaken : ∀ b ∈ taken, ∃ part, IsPiece pf part b) {x : Nat} (hx : x ∈ cover pf.gaps)
    (hav : available (x / PARTSIZE) = true) : x ∈ cover ((taken ++ out).map Block.span) := by
  obtain ⟨hin, hpart⟩ := mem_partBytes_div (hok.cover_lt x hx)
  obtain ⟨b, hb, hlo, hhi⟩ := exists_piece hx hin
  obtain ⟨r, hr, hover⟩ := h.exhaustive hlt _ ⟨hpart, hav⟩ b hb
  have hpiece : ∃ part, IsPiece pf part r := by
    rcases List.mem_append.mp hr with hr | hr
    · exact htaken r hr
    · obtain ⟨part, -, hp⟩ := h.piece r hr
      exact ⟨part, hp⟩
  obtain ⟨part, hp⟩ := hpiece
  have heq := hb.eq_of_overlaps hok hp hover
  subst heq
  exact ⟨b.span, List.mem_map_of_mem hr, hlo, hhi⟩

/-- What `k` calls in a row offer when each reserves what it returns. -/
def offers (pf : PartFile) (available : Nat → Bool) (max : Nat) (rarity : Nat → Nat)
    (preview : Bool) : Nat → List Block
  | 0 => []
  | k + 1 =>
    let taken := offers pf available max rarity preview k
    taken ++ pf.nextBlocks available taken max rarity false preview

theorem offers_allocates (hok : pf.Ok) (available : Nat → Bool) (max : Nat) (rarity : Nat → Nat)
    (preview : Bool) (k : Nat) :
    (∀ b ∈ offers pf available max rarity preview k, ∃ part, IsPiece pf part b) ∧
      (offers pf available max rarity preview k).Pairwise fun a b => overlaps b a = false := by
  induction k with
  | zero => exact ⟨fun _ hb => absurd hb List.not_mem_nil, List.Pairwise.nil⟩
  | succ k ih =>
    have hcall := nextBlocks_allocates hok available (offers pf available max rarity preview k) max
      rarity false preview
    refine ⟨fun b hb => ?_, List.pairwise_append.mpr ⟨ih.2, hcall.apart, fun r hr b hb =>
      hcall.free b hb r hr⟩⟩
    rcases List.mem_append.mp hb with hb | hb
    · exact ih.1 b hb
    · obtain ⟨part, -, hp⟩ := hcall.piece b hb
      exact ⟨part, hp⟩

/-- As long as some call returned nothing, everything has been offered; each other call offers
    one block more. -/
theorem mem_offers (hok : pf.Ok) (available : Nat → Bool) {max : Nat} (hmax : 0 < max)
    (rarity : Nat → Nat) (preview : Bool) {x : Nat} (hx : x ∈ cover pf.gaps)
    (hav : available (x / PARTSIZE) = true) {k : Nat} (hk : pf.missing < k) :
    x ∈ cover ((offers pf available max rarity preview k).map Block.span) := by
  have hgrows : ∀ k, k ≤ (offers pf available max rarity preview k).length ∨
      x ∈ cover ((offers pf available max rarity preview k).map Block.span) := by
    intro k
    induction k with
    | zero => exact Or.inl (Nat.zero_le _)
    | succ k ih =>
      have hcall := nextBlocks_allocates hok available
        (offers pf available max rarity preview k) max rarity false preview
      have hpieces := (offers_allocates hok available max rarity preview k).1
      rw [offers, List.length_append]
      by_cases hempty : (pf.nextBlocks available (offers pf available max rarity preview k) max
          rarity false preview).length = 0
      · exact Or.inr (hcall.covers hok (by omega) hpieces hx hav)
      · rcases ih with ih | ih
        · exact Or.inl (by omega)
        · rw [List.map_append, cover_append]
          exact Or.inr (Or.inl ih)
  obtain ⟨hpieces, hapart⟩ := offers_allocates hok available max rarity preview k
  rcases hgrows k with hlen | hin
  · exact absurd (length_le_missing hpieces hapart) (by omega)
  · exact hin

/-! ## The allocator as its callers see it -/

/-- `b` lies in one cell of the lattice of `part`, and in the part. -/
def InCell (size part : Nat) (b : Block) : Prop :=
  b.2 ≤ part * PARTSIZE + partSize part size ∧ ∃ k,
    part * PARTSIZE + k * EMBLOCKSIZE ≤ b.1 ∧ b.2 ≤ part * PARTSIZE + (k + 1) * EMBLOCKSIZE

theorem IsPiece.inCell {part : Nat} {b : Block} (h : IsPiece pf part b) :
    InCell pf.size part b := by
  obtain ⟨g, -, k, h₁, h₂⟩ := h.exists_cell
  exact ⟨h.part_le.2, k, by omega, by omega⟩

theorem IsPiece.inGap {part : Nat} {b : Block} (h : IsPiece pf part b) :
    ∃ g ∈ pf.gaps, g.start ≤ b.1 ∧ b.2 ≤ g.stop := by
  obtain ⟨g, hg, k, h₁, h₂⟩ := h.exists_cell
  exact ⟨g, hg, by omega, by omega⟩

theorem InCell.length_le {size part : Nat} {b : Block} (h : InCell size part b) :
    b.2 - b.1 ≤ EMBLOCKSIZE := by
  obtain ⟨-, k, h₁, h₂⟩ := h
  rw [Nat.succ_mul] at h₂
  omega

/-- In a file no longer than `i64::MAX` no cell end passes a u64. -/
theorem cellEnd_lt {part start size : Nat} (hsize : size < 2 ^ 63) (hstart : start < size)
    (hpart : part * PARTSIZE ≤ start) : PartFile.cellEnd part start < 2 ^ 64 := by
  have hcell : EMBLOCKSIZE * ((start - part * PARTSIZE) / EMBLOCKSIZE) ≤ start - part * PARTSIZE :=
    Nat.mul_div_le ..
  have hblock : EMBLOCKSIZE < 2 ^ 63 := by decide
  rw [PartFile.cellEnd, Nat.mul_succ]
  omega

theorem disjoint_of_overlaps {b r : Block} (h : overlaps b r = false) :
    Disjoint (Set.Ico b.1 b.2) (Set.Ico r.1 r.2) := by
  rw [overlaps_eq_false] at h
  refine Set.disjoint_left.mpr fun x hb hr => ?_
  have hb' : b.1 ≤ x ∧ x < b.2 := hb
  have hr' : r.1 ≤ x ∧ x < r.2 := hr
  omega

/-- The blocks of a call are at most `max`, apart from each other and, outside endgame, from what
    is reserved; each is not empty, missing, and in one lattice cell of a part the source has. A
    call that is not full leaves out no missing byte of these parts: the piece of its cell that is
    missing meets a block of the call or, outside endgame, a reserved one. -/
theorem block_allocator (hok : pf.Ok) (available : Nat → Bool) (reserved : List Block)
    (max : Nat) (rarity : Nat → Nat) (endgame preview : Bool) :
    let out := pf.nextBlocks available reserved max rarity endgame preview
    out.length ≤ max ∧
      out.Pairwise (fun a b => Disjoint (Set.Ico a.1 a.2) (Set.Ico b.1 b.2)) ∧
      (∀ b ∈ out, b.1 < b.2 ∧ b.2 - b.1 ≤ EMBLOCKSIZE ∧
        (∃ g ∈ pf.gaps, g.start ≤ b.1 ∧ b.2 ≤ g.stop) ∧
        (∃ part, part < dataPartCount pf.size ∧ available part = true ∧
          part * PARTSIZE ≤ b.1 ∧ InCell pf.size part b) ∧
        (endgame = false → ∀ r ∈ reserved, overlaps b r = false ∧
          Disjoint (Set.Ico b.1 b.2) (Set.Ico r.1 r.2))) ∧
      (out.length < max → ∀ part, part < dataPartCount pf.size → available part = true →
        ∀ x ∈ cover pf.gaps, x ∈ PartFile.partBytes part pf.size →
          ∃ c, IsPiece pf part c ∧ c.1 ≤ x ∧ x < c.2 ∧
            ((∃ b ∈ out, overlaps c b = true) ∨
              endgame = false ∧ ∃ r ∈ reserved, overlaps c r = true)) := by
  intro out
  have hcall := nextBlocks_allocates hok available reserved max rarity endgame preview
  refine ⟨hcall.length_le, ?_, fun b hb => ?_, fun hlt part hpart hav x hx hin => ?_⟩
  · exact hcall.apart.imp fun hab => (disjoint_of_overlaps hab).symm
  · obtain ⟨part, ⟨hpart, hav⟩, hpiece⟩ := hcall.piece b hb
    refine ⟨hpiece.nonempty, hpiece.inCell.length_le, hpiece.inGap,
      ⟨part, hpart, hav, hpiece.part_le.1, hpiece.inCell⟩, fun hend r hr => ?_⟩
    have hfree := hcall.free b hb r
    rw [hend, if_neg Bool.false_ne_true] at hfree
    exact ⟨hfree hr, disjoint_of_overlaps (hfree hr)⟩
  · obtain ⟨c, hc, hlo, hhi⟩ := exists_piece hx hin
    obtain ⟨r, hr, hover⟩ := hcall.exhaustive hlt part ⟨hpart, hav⟩ c hc
    refine ⟨c, hc, hlo, hhi, ?_⟩
    rcases List.mem_append.mp hr with hr | hr
    · cases endgame with
      | true => exact absurd hr List.not_mem_nil
      | false => exact Or.inr ⟨rfl, r, hr, hover⟩
    · exact Or.inl ⟨r, hr, hover⟩

/-- A file of two blocks and a bit. -/
def tailFile : PartFile := ⟨.fill 16 0, 400000, [], [⟨0, 400000⟩], []⟩

theorem block_allocator_skips_reserved :
    tailFile.nextBlocks (fun _ => true) [(5, 9)] 3 (fun _ => 0) false false =
        [(184320, 368640), (368640, 400000)] ∧
      ∀ x ∈ cover tailFile.gaps, x ∈ PartFile.partBytes 0 tailFile.size →
        ∃ c, IsPiece tailFile 0 c ∧ c.1 ≤ x ∧ x < c.2 := by
  have hok : tailFile.Ok := ⟨Tidy.singleton (by decide), by decide⟩
  have hout : tailFile.nextBlocks (fun _ => true) [(5, 9)] 3 (fun _ => 0) false false =
      [(184320, 368640), (368640, 400000)] := by decide
  refine ⟨hout, fun x hx hin => ?_⟩
  have hcomplete := (block_allocator hok (fun _ => true) [(5, 9)] 3 (fun _ => 0) false false).2.2.2
    (by rw [hout]; decide) 0 (by decide) rfl x hx hin
  obtain ⟨c, hc, hlo, hhi, -⟩ := hcomplete
  exact ⟨c, hc, hlo, hhi⟩

end PadMule.Engine
