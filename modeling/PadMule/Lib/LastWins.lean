import Mathlib.Data.List.Basic
import Mathlib.Tactic

/-
  Lists as maps in the order of their keys' first entries, in which the last entry of a key wins.

  `put key l a` puts `a` in the place of the entry under its key, or behind all others. The keys
  stay distinct, and of many entries put in, with distinct keys of their own, all are there
  afterwards, beside the old ones under other keys (`mem_puts`).
-/

namespace LastWins

variable {α κ : Type*} [DecidableEq κ] {key : α → κ}

def put (key : α → κ) (l : List α) (a : α) : List α :=
  if l.any fun b => key b = key a then l.map fun b => if key b = key a then a else b else l ++ [a]

def puts (key : α → κ) (l as : List α) : List α := as.foldl (put key) l

theorem mem_put {l : List α} {a b : α} :
    b ∈ put key l a ↔ b = a ∨ (b ∈ l ∧ key b ≠ key a) := by
  unfold put
  split_ifs with hany
  · obtain ⟨c, hc, hkey⟩ := List.any_eq_true.mp hany
    rw [List.mem_map]
    constructor
    · rintro ⟨d, hd, rfl⟩
      split_ifs with hd'
      · exact .inl rfl
      · exact .inr ⟨hd, hd'⟩
    · rintro (rfl | ⟨hb, hne⟩)
      · exact ⟨c, hc, if_pos (of_decide_eq_true hkey)⟩
      · exact ⟨b, hb, if_neg hne⟩
  · have hnone : ∀ c ∈ l, key c ≠ key a := by simpa using hany
    rw [List.mem_append, List.mem_singleton, or_comm]
    exact or_congr_right ⟨fun hb => ⟨hb, hnone b hb⟩, And.left⟩

/-- The keys keep their order; a new one comes last. -/
theorem map_put (l : List α) (a : α) : (put key l a).map key =
    if key a ∈ l.map key then l.map key else l.map key ++ [key a] := by
  have hany : (l.any fun b => key b = key a) = true ↔ key a ∈ l.map key := by
    rw [List.any_eq_true, List.mem_map]
    simp
  unfold put
  by_cases hmem : key a ∈ l.map key
  · rw [if_pos (hany.mpr hmem), if_pos hmem, List.map_map]
    refine List.map_congr_left fun b _ => ?_
    rw [Function.comp_apply]
    split_ifs with hkey
    · exact hkey.symm
    · rfl
  · rw [if_neg (hany.not.mpr hmem), if_neg hmem, List.map_append, List.map_singleton]

theorem nodup_put {l : List α} (h : (l.map key).Nodup) (a : α) :
    ((put key l a).map key).Nodup := by
  rw [map_put]
  split_ifs with hmem
  · exact h
  · rw [List.nodup_append']
    exact ⟨h, List.nodup_singleton _, List.disjoint_singleton.mpr hmem⟩

theorem nodup_puts {l : List α} (h : (l.map key).Nodup) (as : List α) :
    ((puts key l as).map key).Nodup := by
  induction as generalizing l with
  | nil => exact h
  | cons a as ih => exact ih (nodup_put h a)

theorem mem_puts {l as : List α} (h : (as.map key).Nodup) {b : α} :
    b ∈ puts key l as ↔ b ∈ as ∨ (b ∈ l ∧ key b ∉ as.map key) := by
  induction as generalizing l with
  | nil => simp [puts]
  | cons a as ih =>
    rw [List.map_cons, List.nodup_cons] at h
    have hrest : b ∈ puts key l (a :: as) ↔ _ := ih (l := put key l a) h.2
    rw [hrest, mem_put, List.map_cons, List.mem_cons, List.mem_cons, not_or]
    constructor
    · rintro (hb | ⟨rfl | ⟨hb, hne⟩, hnot⟩)
      · exact .inl (.inr hb)
      · exact .inl (.inl rfl)
      · exact .inr ⟨hb, hne, hnot⟩
    · rintro ((rfl | hb) | ⟨hb, hne, hnot⟩)
      · exact .inr ⟨.inl rfl, h.1⟩
      · exact .inl hb
      · exact .inr ⟨.inr ⟨hb, hne⟩, hnot⟩

end LastWins
