import PadMule.Engine.NextBlocks

/-
  A session whose blocks are pieces of the gap list, each answered by one packet.

  Filling one piece leaves the others pieces (`IsPiece.fillGap`). A receiver over such blocks is in
  step with the gap list (`InStep`): a block that is outstanding is still missing, one that is not
  has been filled. A packet that brings all of an outstanding block completes it and nothing else
  (`InStep.receive`); blocks that are added are new pieces, or are outstanding already, and then
  adding them changes nothing (`InStep.addBlocks`).
-/

namespace Spans

variable {l : List (Span Nat)} {s t : Span Nat}

theorem Tidy.apart_of_mem (h : Tidy l) (hs : s ∈ l) (ht : t ∈ l) :
    s = t ∨ s.stop < t.start ∨ t.stop < s.start := by
  induction l with
  | nil => exact absurd hs List.not_mem_nil
  | cons u l ih =>
    rcases List.mem_cons.mp hs with rfl | hs' <;> rcases List.mem_cons.mp ht with rfl | ht'
    · exact .inl rfl
    · exact .inr (.inl (h.head_apart t ht'))
    · exact .inr (.inr (h.head_apart s hs'))
    · exact ih h.tail hs' ht'

/-- Behind a span of a tidy list there is a hole. -/
theorem Tidy.stop_notMem (h : Tidy l) (hs : s ∈ l) : s.stop ∉ cover l := by
  rintro ⟨t, ht, hlo, hhi⟩
  have hspan := h.nonempty s hs
  rcases h.apart_of_mem hs ht with rfl | hlt | hlt <;> omega

/-- What is covered without a hole lies in one span. -/
theorem Tidy.interval (h : Tidy l) {lo hi : Nat} (hlt : lo < hi)
    (hin : ∀ x, lo ≤ x → x < hi → x ∈ cover l) : ∃ s ∈ l, s.start ≤ lo ∧ hi ≤ s.stop := by
  obtain ⟨s, hs, hslo, hshi⟩ := hin lo le_rfl hlt
  refine ⟨s, hs, hslo, ?_⟩
  by_contra hshort
  exact h.stop_notMem hs (hin s.stop hshi.le (Nat.not_le.mp hshort))

end Spans

namespace PadMule.Engine

open Spans Files PadMule.Proto FileMap Inflate

variable {pf : PartFile}

/-! ## Pieces that stay -/

/-- A piece stays one when another is filled. -/
theorem IsPiece.fillGap (hok : pf.Ok) {p q : Nat} {b c : Block} (hb : IsPiece pf p b)
    (hc : IsPiece pf q c) (hne : c ≠ b) : IsPiece (pf.fillGap b.1 b.2) q c := by
  have hcover := PartFile.cover_fillGap hok b.1 b.2
  have htidy := (hok.fillGap b.1 b.2).tidy
  have happart : ∀ x, c.1 ≤ x → x < c.2 → ¬ (b.1 ≤ x ∧ x < b.2) := fun x hlo hhi hx =>
    hne (hc.eq_of_meet hok hb hlo hhi hx.1 hx.2)
  have hin : ∀ x, c.1 ≤ x → x < c.2 → x ∈ cover (pf.fillGap b.1 b.2).gaps := by
    intro x hlo hhi
    rw [hcover]
    exact ⟨hc.missing hlo hhi, happart x hlo hhi⟩
  obtain ⟨g', hg', hlo', hhi'⟩ := htidy.interval hc.nonempty hin
  obtain ⟨g, hg, k, hstart, hstop⟩ := hc.exists_cell
  have hcne := hc.nonempty
  have hgap' := htidy.nonempty g' hg'
  -- the gap that is left lies in the old one
  have hsub : ∀ x, g'.start ≤ x → x < g'.stop → x ∈ cover pf.gaps := by
    intro x hlo hhi
    have hx : x ∈ cover (pf.fillGap b.1 b.2).gaps := ⟨g', hg', hlo, hhi⟩
    rw [hcover] at hx
    exact hx.1
  obtain ⟨g₀, hg₀, hlo₀, hhi₀⟩ := hok.tidy.interval hgap' hsub
  have hsame : g₀ = g := hok.tidy.eq_of_mem hg₀ hg (x := c.1) ⟨by omega, by omega⟩
    ⟨by omega, by omega⟩
  subst hsame
  refine ⟨hc.nonempty, g', hg', k, ?_, ?_⟩
  · omega
  · rw [PartFile.size_fillGap]
    omega

/-- Filling a piece fills its bytes, and no others. -/
theorem IsPiece.missing_fillGap (hok : pf.Ok) {p : Nat} {b : Block} (hb : IsPiece pf p b) :
    (pf.fillGap b.1 b.2).missing + (b.2 - b.1) = pf.missing := by
  have hcover := PartFile.cover_fillGap hok b.1 b.2
  have hin : ∀ x, b.1 ≤ x → x < b.2 → x ∈ cover pf.gaps := fun x hlo hhi => hb.missing hlo hhi
  have hsplit : (Finset.range pf.size).filter (· ∈ cover pf.gaps) =
      (Finset.range pf.size).filter (· ∈ cover (pf.fillGap b.1 b.2).gaps) ∪ Finset.Ico b.1 b.2 := by
    ext x
    simp only [Finset.mem_filter, Finset.mem_range, Finset.mem_union, Finset.mem_Ico, hcover,
      Set.mem_sdiff, Set.mem_Ico]
    constructor
    · rintro ⟨hx, hmiss⟩
      by_cases hbx : b.1 ≤ x ∧ x < b.2
      · exact .inr hbx
      · exact .inl ⟨hx, hmiss, hbx⟩
    · rintro (⟨hx, hmiss, -⟩ | hbx)
      · exact ⟨hx, hmiss⟩
      · exact ⟨hok.cover_lt x (hin x hbx.1 hbx.2), hin x hbx.1 hbx.2⟩
  have hdisj : Disjoint ((Finset.range pf.size).filter (· ∈ cover (pf.fillGap b.1 b.2).gaps))
      (Finset.Ico b.1 b.2) := by
    rw [Finset.disjoint_left]
    intro x hx hbx
    rw [Finset.mem_filter, hcover] at hx
    exact hx.2.2 (Finset.mem_Ico.mp hbx)
  have hcard := card_cover hok.tidy hok.stop_le
  have hcard' := card_cover (hok.fillGap b.1 b.2).tidy (hok.fillGap b.1 b.2).stop_le
  rw [PartFile.size_fillGap] at hcard'
  rw [hsplit, Finset.card_union_of_disjoint hdisj, hcard', Nat.card_Ico] at hcard
  rw [pf.missing_eq_total, (pf.fillGap b.1 b.2).missing_eq_total]
  omega

/-! ## The receiver -/

variable {Z : Inflater} {rx : BlockReceiver Z}

namespace BlockReceiver

theorem mem_outstanding {b : Block} :
    b ∈ rx.outstanding ↔ b ∈ rx.blocks ∧ (get rx.left b.1).isSome = true := by
  rw [outstanding, List.mem_filter]

/-- The receiver is in step with the gap list, and every block is open or whole. -/
structure InStep (pf : PartFile) (rx : BlockReceiver Z) : Prop where
  size : rx.fileSize = pf.size
  nonempty : ∀ b ∈ rx.blocks, b.1 < b.2
  apart : rx.blocks.Pairwise fun a b => overlaps b a = false
  whole : ∀ start n, get rx.left start = some n → ∃ b ∈ rx.blocks, b.1 = start ∧ n = b.2 - b.1
  piece : ∀ b ∈ rx.outstanding, ∃ part, IsPiece pf part b
  filled : ∀ b ∈ rx.blocks, b ∉ rx.outstanding → ∀ x, b.1 ≤ x → x < b.2 → x ∉ cover pf.gaps
  drained : rx.completed = []

namespace InStep

/-- Blocks that share a byte are one. -/
theorem eq_of_meet (h : InStep pf rx) {b c : Block} (hb : b ∈ rx.blocks) (hc : c ∈ rx.blocks)
    (hmeet : overlaps b c = true) : b = c := by
  have hflip : ∀ {x y : Block}, overlaps y x = false → overlaps x y ≠ true := fun hxy hover => by
    rw [overlaps_eq_false] at hxy
    rw [overlaps_iff] at hover
    omega
  exact List.Pairwise.forall_of_forall_of_flip (R := fun x y => overlaps x y = true → x = y)
    (fun x _ _ => rfl) (h.apart.imp fun {x y} hxy hover => absurd hover (hflip hxy))
    (h.apart.imp fun {x y} hxy hover => absurd hover (by rw [hxy]; decide)) hb hc hmeet

theorem eq_of_start (h : InStep pf rx) {b c : Block} (hb : b ∈ rx.blocks) (hc : c ∈ rx.blocks)
    (hstart : b.1 = c.1) : b = c := by
  have hbne := h.nonempty b hb
  have hcne := h.nonempty c hc
  exact h.eq_of_meet hb hc (overlaps_iff.mpr ⟨by omega, by omega⟩)

theorem isDone_iff (h : InStep pf rx) : rx.isDone = true ↔ rx.outstanding = [] := by
  rw [isDone, List.isEmpty_iff]
  constructor
  · intro hleft
    rw [List.eq_nil_iff_forall_not_mem]
    intro b hb
    have hsome := (mem_outstanding.mp hb).2
    rw [hleft] at hsome
    cases hsome
  · intro hnone
    cases hleft : rx.left with
    | nil => rfl
    | cons e rest =>
      have hget : get rx.left e.1 = some e.2 := by
        rw [hleft]
        exact List.lookup_cons_self
      obtain ⟨b, hb, hstart, -⟩ := h.whole _ _ hget
      have hopen : b ∈ rx.outstanding := mem_outstanding.mpr ⟨hb, by rw [hstart, hget]; rfl⟩
      rw [hnone] at hopen
      exact absurd hopen List.not_mem_nil

/-- The block that answers a packet is the one the packet is for. -/
theorem find_eq (h : InStep pf rx) {b : Block} (hb : b ∈ rx.blocks) {p : Block → Bool}
    (hself : p b = true) (hmeets : ∀ c ∈ rx.blocks, p c = true → overlaps b c = true) :
    rx.blocks.find? p = some b := by
  obtain ⟨c, hc⟩ := Option.isSome_iff_exists.mp (List.find?_isSome.mpr ⟨b, hb, hself⟩)
  have hmem := List.mem_of_find?_eq_some hc
  rw [hc, h.eq_of_meet hb hmem (hmeets c hmem (List.find?_some hc))]

/-- A packet with all of an outstanding block completes it. -/
theorem receive (hok : pf.Ok) (h : InStep pf rx) {b : Block} (hb : b ∈ rx.outstanding)
    {data : Bytes} (hlen : data.length = b.2 - b.1) :
    ∃ rx', rx.placeRaw b.1 b.2 data = (.ok [⟨b.1, data⟩], rx') ∧ rx'.hash = rx.hash ∧
      rx'.completed = [b] ∧ InStep (pf.fillGap b.1 b.2) rx'.takeCompleted.2 ∧
      rx'.takeCompleted.2.outstanding = rx.outstanding.filter (· ≠ b) := by
  obtain ⟨hmem, hsome⟩ := mem_outstanding.mp hb
  have hbne := h.nonempty b hmem
  obtain ⟨part, hpiece⟩ := h.piece b hb
  have hend : b.2 ≤ rx.fileSize := by
    have hlast := hok.cover_lt (b.2 - 1) (hpiece.missing (by omega) (by omega))
    rw [h.size]
    omega
  have howner : rx.containingBlock b.1 b.2 = some b := by
    refine h.find_eq hmem (by simp) fun c hc hin => ?_
    have hin := of_decide_eq_true hin
    exact overlaps_iff.mpr ⟨by omega, by omega⟩
  have hat : rx.blockAt b.1 = some b := by
    refine h.find_eq hmem (by simp) fun c hc hin => ?_
    have hstart : c.1 = b.1 := by simpa using hin
    have hcne := h.nonempty c hc
    exact overlaps_iff.mpr ⟨by omega, by omega⟩
  obtain ⟨n, hn⟩ := Option.isSome_iff_exists.mp hsome
  obtain ⟨c, hc, hcstart, hcn⟩ := h.whole _ _ hn
  have hn' : n = b.2 - b.1 := by rw [hcn, h.eq_of_start hc hmem hcstart]
  have hcredit : rx.credit b.1 data.length = { rx with
      left := remove rx.left b.1
      packed := remove rx.packed b.1
      completed := [b] } := by
    have hzero : n - data.length = 0 := by omega
    have hcompleted : rx.completed ++ (rx.blockAt b.1).toList = [b] := by
      rw [h.drained, hat]
      rfl
    simp only [credit, hn, hzero, if_true, hcompleted]
  have hplace : rx.placeRaw b.1 b.2 data = (.ok [⟨b.1, data⟩], rx.credit b.1 data.length) := by
    rw [placeRaw, if_neg (by omega), howner]
  have hopen : BlockReceiver.outstanding { rx with
      left := remove rx.left b.1
      packed := remove rx.packed b.1
      completed := [] } = rx.outstanding.filter (· ≠ b) := by
    rw [outstanding, outstanding, List.filter_filter]
    refine List.filter_congr fun c hc => ?_
    rw [get_remove]
    by_cases hcb : c = b
    · simp [hcb]
    · have hstart : c.1 ≠ b.1 := fun heq => hcb (h.eq_of_start hc hmem heq)
      simp [hcb, hstart]
  refine ⟨_, hplace, by rw [hcredit], by rw [hcredit], ?_, by rw [hcredit]; exact hopen⟩
  rw [hcredit]
  refine ⟨h.size.trans (PartFile.size_fillGap ..).symm, h.nonempty, h.apart, fun start m hm => ?_,
    fun c hc => ?_, fun c hc hnot => ?_, rfl⟩
  · have hm : get (remove rx.left b.1) start = some m := hm
    rw [get_remove] at hm
    split_ifs at hm
    exact h.whole start m hm
  · have hc : c ∈ rx.outstanding.filter (· ≠ b) := hopen ▸ hc
    obtain ⟨hc, hcb⟩ := List.mem_filter.mp hc
    obtain ⟨q, hq⟩ := h.piece c hc
    exact ⟨q, hpiece.fillGap hok hq (of_decide_eq_true hcb)⟩
  · intro x hlo hhi hx
    rw [PartFile.cover_fillGap hok] at hx
    by_cases hcb : c = b
    · exact hx.2 (hcb ▸ ⟨hlo, hhi⟩)
    · refine h.filled c hc (fun hcopen => hnot ?_) x hlo hhi hx.1
      exact hopen ▸ List.mem_filter.mpr ⟨hcopen, decide_eq_true hcb⟩

/-- A new piece is asked for. -/
theorem addBlock (h : InStep pf rx) {b : Block} (hpiece : ∃ part, IsPiece pf part b)
    (hfree : ∀ r ∈ rx.outstanding, overlaps b r = false) :
    InStep pf (rx.addBlock b) ∧ (rx.addBlock b).outstanding = rx.outstanding ++ [b] ∧
      (rx.addBlock b).hash = rx.hash := by
  obtain ⟨part, hp⟩ := hpiece
  have hbne := hp.nonempty
  have hapart : ∀ c ∈ rx.blocks, overlaps b c = false := by
    intro c hc
    by_cases hopen : c ∈ rx.outstanding
    · exact hfree c hopen
    · rw [overlaps_eq_false]
      have hcne := h.nonempty c hc
      by_contra hmeet
      have hfilled := h.filled c hc hopen (max b.1 c.1)
      exact hfilled (by omega) (by omega) (hp.missing (by omega) (by omega))
  have hstart : ∀ c ∈ rx.blocks, c.1 ≠ b.1 := by
    intro c hc heq
    have hcne := h.nonempty c hc
    have hfar := overlaps_eq_false.mp (hapart c hc)
    omega
  have hnone : get rx.left b.1 = none := by
    cases hget : get rx.left b.1 with
    | none => rfl
    | some n =>
      obtain ⟨c, hc, hcb, -⟩ := h.whole _ _ hget
      exact absurd hcb (hstart c hc)
  have hadd : rx.addBlock b = { rx with
      blocks := rx.blocks ++ [b]
      left := write rx.left b.1 (b.2 - b.1) } := by
    rw [BlockReceiver.addBlock, if_pos ⟨hbne, hnone⟩]
  have hopen : (rx.addBlock b).outstanding = rx.outstanding ++ [b] := by
    rw [hadd, outstanding, outstanding, List.filter_append]
    congr 1
    · refine List.filter_congr fun c hc => ?_
      rw [get_write, if_neg (hstart c hc)]
    · simp [get_write]
  refine ⟨?_, hopen, by rw [hadd]⟩
  refine ⟨?_, fun c hc => ?_, ?_, fun start n hn => ?_, fun c hc => ?_, fun c hc hnot => ?_, ?_⟩
  · rw [hadd]
    exact h.size
  · rw [hadd] at hc
    rcases List.mem_append.mp hc with hc | hc
    · exact h.nonempty c hc
    · rwa [List.mem_singleton.mp hc]
  · rw [hadd]
    refine List.pairwise_append.mpr ⟨h.apart, List.pairwise_singleton _ _, fun c hc d hd => ?_⟩
    rw [List.mem_singleton.mp hd]
    exact hapart c hc
  · rw [hadd] at hn ⊢
    have hn : get (write rx.left b.1 (b.2 - b.1)) start = some n := hn
    rw [get_write] at hn
    split_ifs at hn with hb
    · cases hn
      exact ⟨b, by simp, hb.symm, rfl⟩
    · obtain ⟨c, hc, hcn⟩ := h.whole start n hn
      exact ⟨c, List.mem_append_left _ hc, hcn⟩
  · rw [hopen] at hc
    rcases List.mem_append.mp hc with hc | hc
    · exact h.piece c hc
    · rw [List.mem_singleton.mp hc]
      exact ⟨part, hp⟩
  · rw [hopen] at hnot
    rw [hadd] at hc
    rcases List.mem_append.mp hc with hc | hc
    · exact h.filled c hc fun hcopen => hnot (List.mem_append_left _ hcopen)
    · exact absurd (List.mem_append_right _ hc) hnot
  · rw [hadd]
    exact h.drained

theorem addBlocks (h : InStep pf rx) {more : List Block}
    (hpiece : ∀ b ∈ more, ∃ part, IsPiece pf part b)
    (hapart : more.Pairwise fun a b => overlaps b a = false)
    (hfree : ∀ b ∈ more, ∀ r ∈ rx.outstanding, overlaps b r = false) :
    InStep pf (rx.addBlocks more) ∧ (rx.addBlocks more).outstanding = rx.outstanding ++ more ∧
      (rx.addBlocks more).hash = rx.hash := by
  induction more generalizing rx with
  | nil => exact ⟨h, (List.append_nil _).symm, rfl⟩
  | cons b more ih =>
    obtain ⟨hb, hmore⟩ := List.forall_mem_cons.mp hpiece
    obtain ⟨hbfree, hmorefree⟩ := List.forall_mem_cons.mp hfree
    obtain ⟨hbapart, hmoreapart⟩ := List.pairwise_cons.mp hapart
    obtain ⟨hstep, hopen, hhash⟩ := h.addBlock hb hbfree
    obtain ⟨hstep', hopen', hhash'⟩ := ih hstep hmore hmoreapart fun c hc r hr => by
      rw [hopen] at hr
      rcases List.mem_append.mp hr with hr | hr
      · exact hmorefree c hc r hr
      · rw [List.mem_singleton.mp hr]
        exact hbapart c hc
    refine ⟨hstep', hopen'.trans ?_, hhash'.trans hhash⟩
    rw [hopen, List.append_assoc]
    rfl

end InStep

/-- What is outstanding already is not asked for again. -/
theorem addBlocks_outstanding {more : List Block} (h : ∀ b ∈ more, b ∈ rx.outstanding) :
    rx.addBlocks more = rx := by
  induction more with
  | nil => rfl
  | cons b more ih =>
    obtain ⟨hb, hmore⟩ := List.forall_mem_cons.mp h
    have hsome := (mem_outstanding.mp hb).2
    have hself : rx.addBlock b = rx := by
      rw [BlockReceiver.addBlock, if_neg fun hnew => ?_]
      rw [hnew.2] at hsome
      cases hsome
    rw [addBlocks, List.foldl_cons, hself]
    exact ih hmore

/-- A receiver with nothing to receive. -/
def idle (Z : Inflater) (hash : Hash16) (fileSize : Nat) : BlockReceiver Z :=
  ⟨hash, fileSize, [], [], [], []⟩

theorem inStep_idle (pf : PartFile) (hash : Hash16) : InStep pf (idle Z hash pf.size) where
  size := rfl
  nonempty _ hb := absurd hb List.not_mem_nil
  apart := List.Pairwise.nil
  whole _ _ h := by cases h
  piece _ hb := absurd hb List.not_mem_nil
  filled _ hb := absurd hb List.not_mem_nil
  drained := rfl

/-- A receiver over pieces is the idle one with these added. -/
theorem new_eq {blocks : List Block} (hash : Hash16) (fileSize : Nat)
    (hne : ∀ b ∈ blocks, b.1 < b.2) (hstart : blocks.Pairwise fun a b => a.1 ≠ b.1) :
    BlockReceiver.new Z hash fileSize blocks = some ((idle Z hash fileSize).addBlocks blocks) := by
  have hfold : ∀ (front : List Block) (left : Dir Nat Nat), (∀ b ∈ blocks, get left b.1 = none) →
      (⟨hash, fileSize, front, left, [], []⟩ : BlockReceiver Z).addBlocks blocks =
        ⟨hash, fileSize, front ++ blocks,
          blocks.foldl (fun left b => write left b.1 (b.2 - b.1)) left, [], []⟩ := by
    induction blocks with
    | nil => exact fun front left _ => by rw [List.append_nil]; rfl
    | cons b more ih =>
      intro front left hleft
      obtain ⟨hb, hmore⟩ := List.forall_mem_cons.mp hleft
      obtain ⟨hbne, hmorene⟩ := List.forall_mem_cons.mp hne
      obtain ⟨hbstart, hmorestart⟩ := List.pairwise_cons.mp hstart
      have hadd : (⟨hash, fileSize, front, left, [], []⟩ : BlockReceiver Z).addBlock b =
          ⟨hash, fileSize, front ++ [b], write left b.1 (b.2 - b.1), [], []⟩ := by
        rw [addBlock, if_pos ⟨hbne, hb⟩]
      rw [addBlocks, List.foldl_cons, hadd]
      refine (ih hmorene hmorestart (front ++ [b]) _ fun c hc => ?_).trans ?_
      · rw [get_write, if_neg (hbstart c hc).symm]
        exact hmore c hc
      · rw [List.append_assoc]
        rfl
  rw [BlockReceiver.new, if_pos fun b hb => (hne b hb).le]
  exact congrArg some (hfold [] [] fun _ _ => rfl).symm

end BlockReceiver

end PadMule.Engine
