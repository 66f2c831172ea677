import Mathlib.Data.Set.Lattice
import Mathlib.Order.CompletePartialOrder

/-
  Writers that share a space, each with the cells it may still touch.

  `lane i` is what writer `i` has not finished with, `room` the cells nobody has finished.
  As long as every lane lies in the room and no two meet (`KeptApart`), a cell outside the
  room is nobody's, and finishing a lane takes nothing from the others. One lemma for each
  thing a writer can do: drop cells, enter with new ones, hand its lane over, finish it.
-/

namespace Lanes

variable {ι α : Type*}

structure KeptApart (room : Set α) (lane : ι → Set α) : Prop where
  inside : ∀ i, lane i ⊆ room
  apart : ∀ i j, i ≠ j → Disjoint (lane i) (lane j)

variable {room room' : Set α} {lane lane' : ι → Set α}

theorem keptApart_empty (h : ∀ i, lane i = ∅) : KeptApart room lane where
  inside i := (h i).symm ▸ Set.empty_subset _
  apart i j _ := by
    rw [h i]
    exact Set.empty_disjoint _

namespace KeptApart

/-- Lanes shrink, and the room still holds them. -/
theorem shrink (h : KeptApart room lane) (hlane : ∀ i, lane' i ⊆ lane i)
    (hroom : ∀ i, lane' i ⊆ room') : KeptApart room' lane' where
  inside := hroom
  apart i j hij := (h.apart i j hij).mono (hlane i) (hlane j)

/-- Writer `i` turns to cells of the room that nobody else has. -/
theorem enter (h : KeptApart room lane) {i : ι} (hroom : lane' i ⊆ room)
    (hfree : ∀ j, j ≠ i → Disjoint (lane' i) (lane j))
    (hother : ∀ j, j ≠ i → lane' j ⊆ lane j) : KeptApart room lane' where
  inside j := by
    by_cases hj : j = i
    · rw [hj]
      exact hroom
    · exact (hother j hj).trans (h.inside j)
  apart j k hjk := by
    by_cases hj : j = i
    · subst hj
      exact (hfree k hjk.symm).mono_right (hother k hjk.symm)
    · by_cases hk : k = i
      · subst hk
        exact ((hfree j hj).mono_right (hother j hj)).symm
      · exact (h.apart j k hjk).mono (hother j hj) (hother k hk)

/-- Writer `k` goes on with the lane of `i`, who stops. -/
theorem handOver (h : KeptApart room lane) {i k : ι} (hstop : lane' i = ∅)
    (hlane : lane' k ⊆ lane i) (hother : ∀ j, j ≠ i → j ≠ k → lane' j ⊆ lane j) :
    KeptApart room lane' := by
  have hfrom : ∀ j, j ≠ i → ∃ m, lane' j ⊆ lane m ∧ (j = k ∧ m = i ∨ j ≠ k ∧ m = j) := by
    intro j hji
    by_cases hjk : j = k
    · exact ⟨i, hjk ▸ hlane, .inl ⟨hjk, rfl⟩⟩
    · exact ⟨j, hother j hji hjk, .inr ⟨hjk, rfl⟩⟩
  refine ⟨fun j => ?_, fun j m hjm => ?_⟩
  · by_cases hji : j = i
    · rw [hji, hstop]
      exact Set.empty_subset _
    · obtain ⟨m, hm, -⟩ := hfrom j hji
      exact hm.trans (h.inside m)
  · by_cases hji : j = i
    · rw [hji, hstop]
      exact Set.empty_disjoint _
    · by_cases hmi : m = i
      · rw [hmi, hstop]
        exact Set.disjoint_empty _
      · obtain ⟨j', hj', hjcase⟩ := hfrom j hji
        obtain ⟨m', hm', hmcase⟩ := hfrom m hmi
        refine (h.apart j' m' ?_).mono hj' hm'
        rcases hjcase with ⟨rfl, rfl⟩ | ⟨-, rfl⟩ <;> rcases hmcase with ⟨rfl, rfl⟩ | ⟨-, rfl⟩
        · exact absurd rfl hjm
        · exact fun heq => hmi heq.symm
        · exact hji
        · exact hjm

/-- Writer `i` finishes cells of its lane, and the room loses no others. -/
theorem finish (h : KeptApart room lane) {i : ι} {done : Set α} (hdone : done ⊆ lane i)
    (hlane : lane' i ⊆ lane i \ done) (hother : ∀ j, j ≠ i → lane' j ⊆ lane j)
    (hroom : room \ done ⊆ room') : KeptApart room' lane' := by
  have hle : ∀ j, lane' j ⊆ lane j := fun j => by
    by_cases hj : j = i
    · rw [hj]
      exact hlane.trans Set.sdiff_subset
    · exact hother j hj
  refine h.shrink hle fun j x hx => hroom ⟨h.inside j (hle j hx), fun hxd => ?_⟩
  by_cases hj : j = i
  · subst hj
    exact (hlane hx).2 hxd
  · exact Set.disjoint_left.mp (h.apart j i hj) (hle j hx) (hdone hxd)

end KeptApart

end Lanes
