import Mathlib.Order.Interval.Set.Basic
import Mathlib.Order.Interval.Finset.Nat
import Mathlib.Algebra.Order.BigOperators.Group.List
import Mathlib.Algebra.Order.Ring.Nat
import Mathlib.Data.Finset.Card
import Mathlib.Data.List.Sort
import Mathlib.Data.Set.Lattice
import Mathlib.Order.CompletePartialOrder

/-
  Lists of half-open spans `[start, stop)` over a linear order, read as the set of
  points they cover.

  `Tidy` is the canonical form: every span non-empty, each one strictly below the
  next with at least one uncovered point between them. `merge` tidies a list sorted
  by start (`tidy_merge`) without changing what it covers (`cover_merge`), and leaves
  a tidy list alone (`merge_of_tidy`). `cut` removes one interval from a span.
  Over `Nat` a tidy list's `total` length is the number of points it covers
  (`card_cover`).
-/

namespace Spans

/-- The half-open span `[start, stop)`; empty when `stop ≤ start`. -/
structure Span (α : Type*) where
  start : α
  stop : α
deriving DecidableEq, Repr

variable {α : Type*} [LinearOrder α]

/-- The points some span of the list contains. -/
def cover (l : List (Span α)) : Set α :=
  {x | ∃ s ∈ l, s.start ≤ x ∧ x < s.stop}

theorem mem_cover {l : List (Span α)} {x : α} :
    x ∈ cover l ↔ ∃ s ∈ l, s.start ≤ x ∧ x < s.stop := Iff.rfl

instance (l : List (Span α)) : DecidablePred (· ∈ cover l) :=
  fun _ => inferInstanceAs (Decidable (∃ s ∈ l, _ ∧ _))

@[simp] theorem cover_nil : cover ([] : List (Span α)) = ∅ := by
  ext x; simp [mem_cover]

@[simp] theorem cover_cons (s : Span α) (l : List (Span α)) :
    cover (s :: l) = Set.Ico s.start s.stop ∪ cover l := by
  ext x; simp [mem_cover]

@[simp] theorem cover_append (l m : List (Span α)) :
    cover (l ++ m) = cover l ∪ cover m := by
  induction l with
  | nil => simp
  | cons s l ih => rw [List.cons_append, cover_cons, ih, cover_cons, Set.union_assoc]

theorem cover_flatMap {β : Type*} (l : List β) (f : β → List (Span α)) (x : α) :
    x ∈ cover (l.flatMap f) ↔ ∃ b ∈ l, x ∈ cover (f b) := by
  induction l with
  | nil => simp
  | cons b l ih => rw [List.flatMap_cons, cover_append, Set.mem_union, ih, List.exists_mem_cons_iff]

theorem cover_perm {l m : List (Span α)} (h : l.Perm m) : cover l = cover m := by
  ext x
  simp only [mem_cover, h.mem_iff]

/-- Empty spans contribute nothing. -/
theorem cover_filter_nonempty (l : List (Span α)) :
    cover (l.filter fun s => s.start < s.stop) = cover l := by
  ext x
  simp only [mem_cover, List.mem_filter, decide_eq_true_eq]
  constructor
  · rintro ⟨s, ⟨hs, -⟩, hx⟩
    exact ⟨s, hs, hx⟩
  · rintro ⟨s, hs, hx⟩
    exact ⟨s, ⟨hs, hx.1.trans_lt hx.2⟩, hx⟩

/-! ## Tidy lists -/

/-- Sorted, non-empty, pairwise disjoint and non-adjacent. -/
structure Tidy (l : List (Span α)) : Prop where
  apart : l.Pairwise fun a b => a.stop < b.start
  nonempty : ∀ s ∈ l, s.start < s.stop

theorem Tidy.nil : Tidy ([] : List (Span α)) :=
  ⟨List.Pairwise.nil, by simp⟩

theorem Tidy.singleton {s : Span α} (h : s.start < s.stop) : Tidy [s] :=
  ⟨List.pairwise_singleton _ _, by simpa using h⟩

theorem Tidy.tail {s : Span α} {l : List (Span α)} (h : Tidy (s :: l)) : Tidy l :=
  ⟨(List.pairwise_cons.mp h.apart).2, fun t ht => h.nonempty t (List.mem_cons_of_mem _ ht)⟩

theorem Tidy.head_apart {s : Span α} {l : List (Span α)} (h : Tidy (s :: l)) :
    ∀ t ∈ l, s.stop < t.start :=
  (List.pairwise_cons.mp h.apart).1

theorem Tidy.cons {s : Span α} {l : List (Span α)} (hs : s.start < s.stop)
    (hl : Tidy l) (h : ∀ t ∈ l, s.stop < t.start) : Tidy (s :: l) :=
  ⟨List.pairwise_cons.mpr ⟨h, hl.apart⟩, List.forall_mem_cons.mpr ⟨hs, hl.nonempty⟩⟩

/-- A tidy list is sorted by start. -/
theorem Tidy.sorted {l : List (Span α)} (h : Tidy l) :
    l.Pairwise fun a b => a.start ≤ b.start := by
  induction l with
  | nil => exact List.Pairwise.nil
  | cons s l ih =>
    refine List.pairwise_cons.mpr ⟨fun t ht => ?_, ih h.tail⟩
    have hs := h.nonempty s (List.mem_cons_self ..)
    exact (hs.trans (h.head_apart t ht)).le

/-- A point lies in one span at most. -/
theorem Tidy.eq_of_mem {l : List (Span α)} (h : Tidy l) {s t : Span α} (hs : s ∈ l) (ht : t ∈ l)
    {x : α} (hxs : s.start ≤ x ∧ x < s.stop) (hxt : t.start ≤ x ∧ x < t.stop) : s = t := by
  induction l with
  | nil => exact absurd hs List.not_mem_nil
  | cons u l ih =>
    rcases List.mem_cons.mp hs with rfl | hs' <;> rcases List.mem_cons.mp ht with rfl | ht'
    · rfl
    · exact absurd (hxs.2.trans ((h.head_apart t ht').trans_le hxt.1)) (lt_irrefl x)
    · exact absurd (hxt.2.trans ((h.head_apart s hs').trans_le hxs.1)) (lt_irrefl x)
    · exact ih h.tail hs' ht'

/-- The first span's start is the least covered point. -/
theorem Tidy.isLeast_head {s : Span α} {l : List (Span α)} (h : Tidy (s :: l)) :
    IsLeast (cover (s :: l)) s.start := by
  have hs := h.nonempty s (List.mem_cons_self ..)
  refine ⟨⟨s, List.mem_cons_self .., le_rfl, hs⟩, ?_⟩
  rintro x ⟨t, ht, hx, -⟩
  rcases List.mem_cons.mp ht with rfl | ht
  · exact hx
  · exact (hs.trans ((h.head_apart t ht).trans_le hx)).le

/-- A span without a covered point meets no span of the list. -/
theorem disjoint_iff_no_overlap {l : List (Span α)} (hl : ∀ s ∈ l, s.start < s.stop)
    (a b : α) (hab : a < b) :
    (∀ x ∈ cover l, ¬ (a ≤ x ∧ x < b)) ↔ ∀ s ∈ l, ¬ (s.start < b ∧ a < s.stop) := by
  constructor
  · rintro h s hs ⟨h1, h2⟩
    -- the later of the two starts lies in both
    refine h (max a s.start) ⟨s, hs, le_max_right .., max_lt h2 (hl s hs)⟩ ?_
    exact ⟨le_max_left .., max_lt hab h1⟩
  · rintro h x ⟨s, hs, h1, h2⟩ ⟨h3, h4⟩
    exact h s hs ⟨h1.trans_lt h4, h3.trans_lt h2⟩

/-! ## Merging a sorted list -/

/-- Absorb into `prev` every following span that overlaps or touches it; a span
    beyond it starts the next output span. -/
def mergeFrom (prev : Span α) : List (Span α) → List (Span α)
  | [] => [prev]
  | g :: gs =>
    if g.start ≤ prev.stop then mergeFrom ⟨prev.start, max prev.stop g.stop⟩ gs
    else prev :: mergeFrom g gs

def merge : List (Span α) → List (Span α)
  | [] => []
  | g :: gs => mergeFrom g gs

theorem start_le_of_mem_mergeFrom {prev : Span α} {gs : List (Span α)}
    (h : (prev :: gs).Pairwise fun a b => a.start ≤ b.start) :
    ∀ s ∈ mergeFrom prev gs, prev.start ≤ s.start := by
  induction gs generalizing prev with
  | nil => simp [mergeFrom]
  | cons g gs ih =>
    obtain ⟨hp, hg⟩ := List.pairwise_cons.mp h
    have hpg : prev.start ≤ g.start := hp g (List.mem_cons_self ..)
    have hgs := (List.pairwise_cons.mp hg).2
    unfold mergeFrom
    split
    · have hp' : ∀ b ∈ gs, prev.start ≤ b.start := fun b hb => hp b (List.mem_cons_of_mem _ hb)
      exact @ih ⟨prev.start, _⟩ (List.pairwise_cons.mpr ⟨hp', hgs⟩)
    · rintro s hs
      rcases List.mem_cons.mp hs with rfl | hs
      · exact le_rfl
      · exact hpg.trans (ih hg s hs)

theorem cover_mergeFrom {prev : Span α} {gs : List (Span α)}
    (h : (prev :: gs).Pairwise fun a b => a.start ≤ b.start) :
    cover (mergeFrom prev gs) = cover (prev :: gs) := by
  induction gs generalizing prev with
  | nil => rfl
  | cons g gs ih =>
    obtain ⟨hp, hg⟩ := List.pairwise_cons.mp h
    have hpg : prev.start ≤ g.start := hp g (List.mem_cons_self ..)
    have hgs := (List.pairwise_cons.mp hg).2
    unfold mergeFrom
    split
    · rename_i htouch
      have hp' : ∀ b ∈ gs, prev.start ≤ b.start := fun b hb => hp b (List.mem_cons_of_mem _ hb)
      rw [@ih ⟨prev.start, max prev.stop g.stop⟩ (List.pairwise_cons.mpr ⟨hp', hgs⟩)]
      -- the absorbed span starts inside `prev` or right at its end
      have hjoin : Set.Ico prev.start (max prev.stop g.stop) =
          Set.Ico prev.start prev.stop ∪ Set.Ico g.start g.stop := by
        ext x
        simp only [Set.mem_Ico, Set.mem_union, lt_max_iff]
        constructor
        · rintro ⟨h1, h2 | h2⟩
          · exact Or.inl ⟨h1, h2⟩
          · rcases lt_or_ge x prev.stop with h3 | h3
            · exact Or.inl ⟨h1, h3⟩
            · exact Or.inr ⟨htouch.trans h3, h2⟩
        · rintro (⟨h1, h2⟩ | ⟨h1, h2⟩)
          · exact ⟨h1, Or.inl h2⟩
          · exact ⟨hpg.trans h1, Or.inr h2⟩
      simp only [cover_cons]
      rw [hjoin, Set.union_assoc]
    · rw [cover_cons, ih hg, cover_cons prev]

theorem tidy_mergeFrom {prev : Span α} {gs : List (Span α)}
    (h : (prev :: gs).Pairwise fun a b => a.start ≤ b.start)
    (hne : ∀ s ∈ prev :: gs, s.start < s.stop) : Tidy (mergeFrom prev gs) := by
  induction gs generalizing prev with
  | nil => exact Tidy.singleton (hne prev (List.mem_cons_self ..))
  | cons g gs ih =>
    obtain ⟨hp, hg⟩ := List.pairwise_cons.mp h
    have hgs := (List.pairwise_cons.mp hg).2
    obtain ⟨hprev, hne'⟩ := List.forall_mem_cons.mp hne
    unfold mergeFrom
    split
    · have hp' : ∀ b ∈ gs, prev.start ≤ b.start := fun b hb => hp b (List.mem_cons_of_mem _ hb)
      refine @ih ⟨prev.start, _⟩ (List.pairwise_cons.mpr ⟨hp', hgs⟩) ?_
      refine List.forall_mem_cons.mpr ⟨lt_max_of_lt_left hprev, ?_⟩
      exact fun s hs => hne' s (List.mem_cons_of_mem _ hs)
    · rename_i hbeyond
      refine Tidy.cons hprev (ih hg hne') fun t ht => ?_
      exact (not_le.mp hbeyond).trans_le (start_le_of_mem_mergeFrom hg t ht)

theorem cover_merge {l : List (Span α)} (h : l.Pairwise fun a b => a.start ≤ b.start) :
    cover (merge l) = cover l := by
  cases l with
  | nil => rfl
  | cons g gs => exact cover_mergeFrom h

theorem tidy_merge {l : List (Span α)} (h : l.Pairwise fun a b => a.start ≤ b.start)
    (hne : ∀ s ∈ l, s.start < s.stop) : Tidy (merge l) := by
  cases l with
  | nil => exact Tidy.nil
  | cons g gs => exact tidy_mergeFrom h hne

theorem length_mergeFrom_le (prev : Span α) (gs : List (Span α)) :
    (mergeFrom prev gs).length ≤ gs.length + 1 := by
  induction gs generalizing prev with
  | nil => exact le_rfl
  | cons g gs ih =>
    unfold mergeFrom
    rw [List.length_cons]
    split
    · exact (ih _).trans (Nat.le_succ _)
    · exact Nat.succ_le_succ (ih g)

theorem length_merge_le (l : List (Span α)) : (merge l).length ≤ l.length := by
  cases l with
  | nil => exact le_rfl
  | cons g gs => exact length_mergeFrom_le g gs

theorem mergeFrom_of_tidy {prev : Span α} {gs : List (Span α)} (h : Tidy (prev :: gs)) :
    mergeFrom prev gs = prev :: gs := by
  induction gs generalizing prev with
  | nil => rfl
  | cons g gs ih =>
    have hbeyond : ¬ g.start ≤ prev.stop :=
      not_le.mpr (h.head_apart g (List.mem_cons_self ..))
    unfold mergeFrom
    rw [if_neg hbeyond, ih h.tail]

theorem merge_of_tidy {l : List (Span α)} (h : Tidy l) : merge l = l := by
  cases l with
  | nil => rfl
  | cons g gs => exact mergeFrom_of_tidy h

/-! ## Sorting by start -/

/-- Stable sort by start. -/
def sortByStart (l : List (Span α)) : List (Span α) :=
  l.insertionSort fun a b => a.start ≤ b.start

instance : Std.Total fun a b : Span α => a.start ≤ b.start := ⟨fun a b => le_total a.start b.start⟩

instance : IsTrans (Span α) fun a b => a.start ≤ b.start := ⟨fun _ _ _ => le_trans⟩

theorem perm_sortByStart (l : List (Span α)) : (sortByStart l).Perm l :=
  List.perm_insertionSort _ l

theorem sorted_sortByStart (l : List (Span α)) :
    (sortByStart l).Pairwise fun a b => a.start ≤ b.start :=
  List.pairwise_insertionSort _ l

theorem sortByStart_of_sorted {l : List (Span α)}
    (h : l.Pairwise fun a b => a.start ≤ b.start) : sortByStart l = l :=
  h.insertionSort_eq

/-! ## Cutting an interval out -/

/-- What is left of `g` once `[a, b)` is removed. -/
def cut (a b : α) (g : Span α) : List (Span α) :=
  if g.stop ≤ a ∨ b ≤ g.start then [g]
  else
    (if g.start < a then [⟨g.start, a⟩] else []) ++
      (if b < g.stop then [⟨b, g.stop⟩] else [])

theorem cover_cut (a b : α) (g : Span α) :
    cover (cut a b g) = Set.Ico g.start g.stop \ Set.Ico a b := by
  ext x
  unfold cut
  split
  · simp only [cover_cons, cover_nil, Set.union_empty, Set.mem_sdiff, Set.mem_Ico]
    grind
  · rw [cover_append]
    split <;> split <;>
      simp only [cover_cons, cover_nil, Set.mem_union, Set.mem_sdiff, Set.mem_Ico,
        Set.mem_empty_iff_false, or_false, false_or] <;>
      grind

theorem cover_flatMap_cut (a b : α) (l : List (Span α)) :
    cover (l.flatMap (cut a b)) = cover l \ Set.Ico a b := by
  ext x
  rw [cover_flatMap]
  simp only [cover_cut, Set.mem_sdiff, mem_cover, Set.mem_Ico]
  constructor
  · rintro ⟨s, hs, h, hn⟩
    exact ⟨⟨s, hs, h⟩, hn⟩
  · rintro ⟨⟨s, hs, h⟩, hn⟩
    exact ⟨s, hs, h, hn⟩

/-! ## Counting points -/

/-- Sum of the spans' lengths. -/
def total (l : List (Span Nat)) : Nat := (l.map fun s => s.stop - s.start).sum

@[simp] theorem total_cons (s : Span Nat) (l : List (Span Nat)) :
    total (s :: l) = (s.stop - s.start) + total l := by
  simp [total]

theorem length_le_total {l : List (Span Nat)} (h : ∀ s ∈ l, s.start < s.stop) :
    l.length ≤ total l := by
  induction l with
  | nil => exact le_rfl
  | cons s l ih =>
    obtain ⟨hs, hl⟩ := List.forall_mem_cons.mp h
    have := ih hl
    rw [List.length_cons, total_cons]
    omega

/-- No point lies in two spans of the list. -/
def Apart (l : List (Span Nat)) : Prop :=
  l.Pairwise fun s t => Disjoint (Set.Ico s.start s.stop) (Set.Ico t.start t.stop)

theorem Tidy.disjoint {l : List (Span Nat)} (h : Tidy l) : Apart l :=
  h.apart.imp fun {s t} hst => Set.disjoint_left.mpr fun x hs ht => by
    have := hs.2
    have := ht.1
    omega

theorem filter_cover_cons {s : Span Nat} {l : List (Span Nat)} {n : Nat} (hs : s.stop ≤ n) :
    (Finset.range n).filter (· ∈ cover (s :: l)) =
      Finset.Ico s.start s.stop ∪ (Finset.range n).filter (· ∈ cover l) := by
  ext x
  simp only [Finset.mem_filter, Finset.mem_range, cover_cons, Set.mem_union, Set.mem_Ico,
    Finset.mem_union, Finset.mem_Ico]
  grind

/-- Spans that are apart, below `n`, cover exactly `total` points of `[0, n)`. -/
theorem card_cover_of_apart {l : List (Span Nat)} (h : Apart l) {n : Nat}
    (hn : ∀ s ∈ l, s.stop ≤ n) : ((Finset.range n).filter (· ∈ cover l)).card = total l := by
  induction l with
  | nil => simp [total]
  | cons s l ih =>
    obtain ⟨hhead, htail⟩ := List.pairwise_cons.mp h
    obtain ⟨hs, hl⟩ := List.forall_mem_cons.mp hn
    have hdisj : Disjoint (Finset.Ico s.start s.stop)
        ((Finset.range n).filter (· ∈ cover l)) := by
      rw [Finset.disjoint_left]
      intro x hx hx'
      obtain ⟨t, ht, hin⟩ := (Finset.mem_filter.mp hx').2
      exact Set.disjoint_left.mp (hhead t ht) (Finset.mem_Ico.mp hx) hin
    rw [filter_cover_cons hs, Finset.card_union_of_disjoint hdisj, Nat.card_Ico, total_cons,
      ih htail hl]

/-- A tidy list below `n` covers exactly `total` points of `[0, n)`. -/
theorem card_cover {l : List (Span Nat)} (h : Tidy l) {n : Nat} (hn : ∀ s ∈ l, s.stop ≤ n) :
    ((Finset.range n).filter (· ∈ cover l)).card = total l :=
  card_cover_of_apart h.disjoint hn

/-- No list covers more points than its spans have. -/
theorem card_cover_le (l : List (Span Nat)) (n : Nat) :
    ((Finset.range n).filter (· ∈ cover l)).card ≤ total l := by
  induction l with
  | nil => simp [total]
  | cons s l ih =>
    have hsub : (Finset.range n).filter (· ∈ cover (s :: l)) ⊆
        Finset.Ico s.start s.stop ∪ (Finset.range n).filter (· ∈ cover l) := by
      intro x
      simp only [Finset.mem_filter, Finset.mem_range, cover_cons, Set.mem_union, Set.mem_Ico,
        Finset.mem_union, Finset.mem_Ico]
      grind
    calc ((Finset.range n).filter (· ∈ cover (s :: l))).card
        ≤ (Finset.Ico s.start s.stop ∪ (Finset.range n).filter (· ∈ cover l)).card :=
          Finset.card_le_card hsub
      _ ≤ (Finset.Ico s.start s.stop).card + ((Finset.range n).filter (· ∈ cover l)).card :=
          Finset.card_union_le _ _
      _ ≤ total (s :: l) := by
          rw [Nat.card_Ico, total_cons]
          exact Nat.add_le_add_left ih _

/-- Spans that are apart and covered by another list are no longer than it. -/
theorem total_le_of_cover {l m : List (Span Nat)} (h : Apart l) (hsub : cover l ⊆ cover m) :
    total l ≤ total m := by
  obtain ⟨n, hn⟩ : ∃ n, ∀ s ∈ l, s.stop ≤ n :=
    ⟨(l.map Span.stop).sum, fun s hs => List.le_sum_of_mem (List.mem_map_of_mem hs)⟩
  rw [← card_cover_of_apart h hn]
  refine (Finset.card_le_card fun x hx => ?_).trans (card_cover_le m n)
  rw [Finset.mem_filter] at hx ⊢
  exact ⟨hx.1, hsub hx.2⟩

end Spans
