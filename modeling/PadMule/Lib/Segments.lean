import Mathlib.Tactic

/-
  Consecutive segments of `[s, n)`, each ending where `next` says.

  `segments next n s` lists `(start, length)` from `s` on; it stops early where `next`
  does not advance. Segmentations of two ranges join (`segments_append`), and shift
  with their `next` (`segments_shift`).
-/

namespace Segments

/-- The segments of `[s, n)`: each runs from its start `a` to `next a`. -/
def segments (next : Nat → Nat) (n s : Nat) : List (Nat × Nat) :=
  if s < n ∧ s < next s then (s, next s - s) :: segments next n (next s) else []
termination_by n - s

/-- The bytes of one segment. -/
def slice {α : Type*} (l : List α) (g : Nat × Nat) : List α := (l.drop g.1).take g.2

variable {next next' : Nat → Nat} {m n s : Nat}

theorem segments_of_le (h : n ≤ s) : segments next n s = [] := by
  rw [segments, if_neg (by omega)]

theorem segments_cons (h : s < n) (hs : s < next s) :
    segments next n s = (s, next s - s) :: segments next n (next s) := by
  rw [segments, if_pos ⟨h, hs⟩]

/-- Only the values of `next` inside the range matter. -/
theorem segments_congr (h : ∀ a < n, next a = next' a) :
    segments next n s = segments next' n s := by
  induction s using segments.induct next n with
  | case1 s hs ih =>
    have hs' : s < next' s := by
      rw [← h s hs.1]
      exact hs.2
    rw [segments_cons hs.1 hs.2, ih, segments_cons hs.1 hs', h s hs.1]
  | case2 s hs =>
    rw [segments, if_neg hs, segments, if_neg]
    intro hs'
    exact hs ⟨hs'.1, by rw [h s hs'.1]; exact hs'.2⟩

/-- A boundary no segment crosses splits the segmentation. -/
theorem segments_append (hmn : m ≤ n) (hstep : ∀ a < m, a < next a ∧ next a ≤ m) (hs : s ≤ m) :
    segments next n s = segments next m s ++ segments next n m := by
  induction s using segments.induct next m with
  | case1 s h ih =>
    rw [segments_cons (by omega) h.2, segments_cons h.1 h.2, ih (hstep s h.1).2]
    rfl
  | case2 s h =>
    have hms : m ≤ s := by
      by_contra hlt
      exact h ⟨by omega, (hstep s (by omega)).1⟩
    rw [segments_of_le (n := m) hms, show s = m by omega]
    rfl

/-- Segmentations shift with their `next`. -/
theorem segments_shift (h : ∀ a < n, next (m + a) = m + next' a) :
    segments next (m + n) (m + s) = (segments next' n s).map fun g => (m + g.1, g.2) := by
  induction s using segments.induct next' n with
  | case1 s hs ih =>
    have hn := h s hs.1
    rw [segments_cons (by omega) (by omega), segments_cons hs.1 hs.2, hn, ih, List.map_cons]
    congr 2
    omega
  | case2 s hs =>
    rw [segments, if_neg, segments, if_neg hs]
    · rfl
    · intro hc
      have hn := h s (by omega)
      exact hs (by omega)

/-- Segments lie in the range when `next` never leaves it. -/
theorem segments_bound (hstep : ∀ a < n, next a ≤ n) {g : Nat × Nat}
    (hg : g ∈ segments next n s) : g.1 + g.2 ≤ n := by
  induction s using segments.induct next n with
  | case1 s hs ih =>
    rw [segments_cons hs.1 hs.2, List.mem_cons] at hg
    obtain rfl | hg := hg
    · have := hstep s hs.1
      show s + (next s - s) ≤ n
      omega
    · exact ih hg
  | case2 s hs =>
    rw [segments, if_neg hs] at hg
    cases hg

theorem slice_take {α : Type*} {l : List α} {g : Nat × Nat} {k : Nat} (h : g.1 + g.2 ≤ k) :
    slice (l.take k) g = slice l g := by
  rw [slice, slice, List.drop_take, List.take_take, Nat.min_eq_left (by omega)]

theorem slice_drop {α : Type*} (l : List α) (k a len : Nat) :
    slice (l.drop k) (a, len) = slice l (k + a, len) := by
  rw [slice, slice, List.drop_drop]

end Segments
