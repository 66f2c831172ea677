import Mathlib.Data.List.Basic
import Mathlib.Tactic

/-
  Binary search over a list that is ordered for the comparison.

  `cmp` says of an element whether it stands before what is looked for, is it, or stands behind.
  What is found compares as equal; where nothing is, the place is the one up to which every element
  stands before and from which on every element stands behind (`binarySearchBy_spec`).
-/

namespace BinarySearch

variable {α : Type*} (cmp : α → Ordering) (s : List α)

/-- Where to go on once the element at `mid` is compared. -/
def turn (base mid : Nat) : Nat := if (s[mid]?).map cmp = some .gt then base else mid

/-- The loop: of the `size` elements from `base` on, keep the half that the middle one points to. -/
def narrow (base size : Nat) : Nat :=
  if size ≤ 1 then base
  else
    let half := size / 2
    narrow (turn cmp s base (base + half)) (size - half)
termination_by size
decreasing_by omega

/-- The index of a match, or else where one would have to be. -/
def binarySearchBy : Except Nat Nat :=
  let base := narrow cmp s 0 s.length
  match (s[base]?).map cmp with
  | none => .error 0
  | some .eq => .ok base
  | some .lt => .error (base + 1)
  | some .gt => .error base

/-- Nothing before stands behind what comes after it. -/
def Ordered : Prop :=
  s.Pairwise fun a b => (cmp a = .gt → cmp b = .gt) ∧ (cmp b = .lt → cmp a = .lt)

/-- What the loop knows: behind what is left everything stands behind what is looked for, and the
    base does not unless nothing was dropped in front of it. -/
structure Narrowed (base size : Nat) : Prop where
  inside : base + size ≤ s.length
  behind : ∀ (j : Nat) (a : α), base + size ≤ j → s[j]? = some a → cmp a = .gt
  base_le : base = 0 ∨ ∃ a, s[base]? = some a ∧ cmp a ≠ .gt

variable {cmp s}

theorem Ordered.getElem {i j : Nat} {a b : α} (h : Ordered cmp s) (ha : s[i]? = some a)
    (hb : s[j]? = some b) (hij : i < j) :
    (cmp a = .gt → cmp b = .gt) ∧ (cmp b = .lt → cmp a = .lt) := by
  obtain ⟨hi, rfl⟩ := List.getElem?_eq_some_iff.mp ha
  obtain ⟨hj, rfl⟩ := List.getElem?_eq_some_iff.mp hb
  exact List.pairwise_iff_getElem.mp h i j hi hj hij

/-- One round of the loop. -/
theorem Narrowed.turn (h : Ordered cmp s) {base size half : Nat} (hpos : 0 < half)
    (hhalf : 2 * half ≤ size) (hn : Narrowed cmp s base size) :
    Narrowed cmp s (turn cmp s base (base + half)) (size - half) := by
  have hinside := hn.inside
  have hmid : s[base + half]? = some s[base + half] := List.getElem?_eq_getElem (by omega)
  unfold BinarySearch.turn
  rw [hmid, Option.map_some]
  split_ifs with hgt
  · -- what stands behind the middle is dropped, and the middle with it unless it is left over
    refine ⟨by omega, fun j a hj ha => ?_, hn.base_le⟩
    rcases Nat.lt_or_ge (base + half) j with hlt | hge
    · exact (h.getElem hmid ha hlt).1 (Option.some.inj hgt)
    · obtain rfl : j = base + half := by omega
      rw [hmid] at ha
      cases ha
      exact Option.some.inj hgt
  · refine ⟨by omega, fun j a hj ha => hn.behind j a (by omega) ha, .inr ⟨_, hmid, ?_⟩⟩
    exact fun heq => hgt (congrArg some heq)

theorem Narrowed.narrow (h : Ordered cmp s) {base size : Nat} (hpos : 0 < size)
    (hn : Narrowed cmp s base size) : Narrowed cmp s (narrow cmp s base size) 1 := by
  fun_induction BinarySearch.narrow cmp s base size with
  | case1 base size hsize =>
    obtain rfl : size = 1 := by omega
    exact hn
  | case2 base size hsize half ih =>
    have hhalf : 0 < half ∧ 2 * half ≤ size := by omega
    exact ih (by omega) (hn.turn h hhalf.1 hhalf.2)

/-- What a search says of the list. -/
def Found (cmp : α → Ordering) (s : List α) : Except Nat Nat → Prop
  | .ok i => ∃ a, s[i]? = some a ∧ cmp a = .eq
  | .error i => i ≤ s.length ∧ (∀ a ∈ s.take i, cmp a = .lt) ∧ ∀ a ∈ s.drop i, cmp a = .gt

theorem binarySearchBy_spec (h : Ordered cmp s) : Found cmp s (binarySearchBy cmp s) := by
  unfold binarySearchBy
  rcases s.eq_nil_or_concat' with rfl | ⟨front, last, rfl⟩
  · simp [Found]
  generalize hs : front ++ [last] = s at h
  have hpos : 0 < s.length := by simp [← hs]
  have hstart : Narrowed cmp s 0 s.length := by
    refine ⟨by omega, fun j a hj ha => ?_, .inl rfl⟩
    rw [List.getElem?_eq_none (by omega)] at ha
    cases ha
  have hn := hstart.narrow h hpos
  dsimp only
  generalize BinarySearch.narrow cmp s 0 s.length = base at hn
  have hinside := hn.inside
  have hbase : s[base]? = some s[base] := List.getElem?_eq_getElem (by omega)
  have hbehind : ∀ a ∈ s.drop (base + 1), cmp a = .gt := by
    intro a ha
    obtain ⟨j, hj⟩ := List.mem_iff_getElem?.mp ha
    rw [List.getElem?_drop] at hj
    exact hn.behind _ a (by omega) hj
  rw [hbase, Option.map_some]
  cases hcmp : cmp s[base] with
  | eq => exact ⟨_, hbase, hcmp⟩
  | lt =>
    refine ⟨hinside, fun a ha => ?_, hbehind⟩
    obtain ⟨j, hj⟩ := List.mem_iff_getElem?.mp ha
    rw [List.getElem?_take] at hj
    split_ifs at hj with hlt
    obtain rfl | hlt' : j = base ∨ j < base := by omega
    · rw [hbase] at hj
      cases hj
      exact hcmp
    · exact (h.getElem hj hbase hlt').2 hcmp
  | gt =>
    -- the base stands behind only where nothing was dropped in front of it
    have hzero : base = 0 := by
      rcases hn.base_le with hzero | ⟨a, ha, hne⟩
      · exact hzero
      · rw [hbase] at ha
        cases ha
        exact absurd hcmp hne
    subst hzero
    refine ⟨Nat.zero_le _, by simp, fun a ha => ?_⟩
    rw [List.drop_eq_getElem_cons (by omega), List.mem_cons] at ha
    rcases ha with rfl | ha
    · exact hcmp
    · exact hbehind a ha

end BinarySearch
