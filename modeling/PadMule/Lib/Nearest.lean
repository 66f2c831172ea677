import Mathlib.Data.List.Sort
import Mathlib.Order.Basic

/-
  The first few of a list by a key.

  With keys that differ they stand in strict order, and whoever is left out has a greater key than
  all of them, who are then as many as were asked for.
-/

namespace Nearest

variable {α β : Type*} [LinearOrder β]

def nearest (key : α → β) (count : Nat) (l : List α) : List α :=
  (l.insertionSort fun a b => key a ≤ key b).take count

variable {key : α → β} {count : Nat} {l : List α}

theorem length_nearest_le : (nearest key count l).length ≤ count := List.length_take_le _ _

theorem mem_of_mem_nearest {a : α} (h : a ∈ nearest key count l) : a ∈ l :=
  (List.mem_insertionSort _).mp (List.mem_of_mem_take h)

theorem sorted_lt (h : (l.map key).Nodup) :
    (l.insertionSort fun a b => key a ≤ key b).Pairwise fun a b => key a < key b := by
  have : IsTrans α fun a b => key a ≤ key b := ⟨fun _ _ _ hab hbc => hab.trans hbc⟩
  have : Std.Total fun a b : α => key a ≤ key b := ⟨fun _ _ => le_total _ _⟩
  have hle := List.pairwise_insertionSort (fun a b => key a ≤ key b) l
  have hne : (l.insertionSort fun a b => key a ≤ key b).Pairwise fun a b => key a ≠ key b :=
    List.pairwise_map.mp (((List.perm_insertionSort _ l).map key).nodup_iff.mpr h)
  exact hle.imp₂ (fun _ _ hab hid => lt_of_le_of_ne hab hid) hne

theorem nearest_sorted (h : (l.map key).Nodup) :
    (nearest key count l).Pairwise fun a b => key a < key b :=
  (sorted_lt h).sublist (List.take_sublist _ _)

/-- Who is left out is further away. -/
theorem mem_nearest_or (h : (l.map key).Nodup) (count : Nat) {a : α} (ha : a ∈ l) :
    a ∈ nearest key count l ∨ ((nearest key count l).length = count ∧
      ∀ b ∈ nearest key count l, key b < key a) := by
  have hsorted := sorted_lt h
  have hmem := (List.mem_insertionSort fun a b => key a ≤ key b).mpr ha
  unfold nearest
  generalize (l.insertionSort fun a b => key a ≤ key b) = sorted at hsorted hmem ⊢
  rw [← List.take_append_drop count sorted] at hmem hsorted
  rcases List.mem_append.mp hmem with hin | hout
  · exact .inl hin
  · refine .inr ⟨?_, fun b hb => (List.pairwise_append.mp hsorted).2.2 b hb a hout⟩
    have hpos := List.length_pos_of_mem hout
    rw [List.length_drop] at hpos
    rw [List.length_take]
    omega

end Nearest
