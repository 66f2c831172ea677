import PadMule.Lib.Slots
import Mathlib.Data.List.Basic
import Mathlib.Data.List.Nodup

/-
  A shared list of reservations, the lists of its holders, and removal by value.

  `taken` is what everybody sees, `held[i]` what holder `i` has reserved. Giving a value
  back removes every equal entry from both. So `Owned` (each entry is somebody's) holds
  over every run, whatever is reserved twice; `Entered` (whatever is held is entered) is
  lost as soon as one of two holders of a value gives it back. It is kept exactly where that
  does not happen (`Sole`). Where besides nothing is reserved that clashes with an entry, what
  different holders hold never clashes (`Exclusive`).
-/

namespace Leases

variable {α : Type*}

structure Ledger (α : Type*) where
  taken : List α
  held : List (List α)

namespace Ledger

/-- A new holder. -/
def join (l : Ledger α) : Ledger α := { l with held := l.held ++ [[]] }

/-- `xs` is reserved for holder `i`, who holds `h`. -/
def grant (l : Ledger α) (i : Nat) (h xs : List α) : Ledger α :=
  ⟨l.taken ++ xs, l.held.set i (h ++ xs)⟩

/-- Holder `i`, who holds `h`, gives `xs` back. -/
def giveBack [BEq α] [LawfulBEq α] (l : Ledger α) (i : Nat) (h xs : List α) : Ledger α :=
  ⟨l.taken.filter (· ∉ xs), l.held.set i (h.filter (· ∉ xs))⟩

/-- Every entry is held by somebody. -/
def Owned (l : Ledger α) : Prop := ∀ x ∈ l.taken, ∃ h ∈ l.held, x ∈ h

/-- Whatever is held is entered. -/
def Entered (l : Ledger α) : Prop := ∀ h ∈ l.held, ∀ x ∈ h, x ∈ l.taken

/-- Nobody but `i` holds one of `xs`. -/
def Sole (l : Ledger α) (i : Nat) (xs : List α) : Prop :=
  ∀ (j : Nat) (h : List α), l.held[j]? = some h → j ≠ i → ∀ x ∈ xs, x ∉ h

/-- What different holders hold does not clash. -/
def Exclusive (clash : α → α → Prop) (l : Ledger α) : Prop :=
  ∀ (i j : Nat) (hi hj : List α), i ≠ j → l.held[i]? = some hi → l.held[j]? = some hj →
    ∀ x ∈ hi, ∀ y ∈ hj, ¬clash x y

variable {l : Ledger α}

theorem owned_empty : Owned (⟨[], []⟩ : Ledger α) := fun _ hx => absurd hx List.not_mem_nil

theorem entered_empty : Entered (⟨[], []⟩ : Ledger α) := fun _ hh => absurd hh List.not_mem_nil

theorem Owned.join (h : Owned l) : Owned l.join := by
  intro x hx
  obtain ⟨g, hg, hxg⟩ := h x hx
  exact ⟨g, List.mem_append_left _ hg, hxg⟩

theorem Owned.grant (ho : Owned l) {i : Nat} {h : List α} (hi : l.held[i]? = some h)
    (xs : List α) : Owned (l.grant i h xs) := by
  obtain ⟨hlt, -⟩ := List.getElem?_eq_some_iff.mp hi
  have hself : (h ++ xs) ∈ l.held.set i (h ++ xs) := List.mem_set hlt _
  intro x hx
  rcases List.mem_append.mp hx with hx | hx
  · obtain ⟨g, hg, hxg⟩ := ho x hx
    obtain ⟨j, hj⟩ := List.mem_iff_getElem?.mp hg
    by_cases hij : j = i
    · rw [hij, hi] at hj
      cases hj
      exact ⟨_, hself, List.mem_append_left _ hxg⟩
    · refine ⟨g, List.mem_iff_getElem?.mpr ⟨j, ?_⟩, hxg⟩
      rw [Ledger.grant, List.getElem?_set_ne (Ne.symm hij), hj]
  · exact ⟨_, hself, List.mem_append_right _ hx⟩

theorem Owned.giveBack [BEq α] [LawfulBEq α] (ho : Owned l) {i : Nat} {h : List α}
    (hi : l.held[i]? = some h) (xs : List α) : Owned (l.giveBack i h xs) := by
  obtain ⟨hlt, -⟩ := List.getElem?_eq_some_iff.mp hi
  intro x hx
  obtain ⟨hx, hkeep⟩ := List.mem_filter.mp hx
  obtain ⟨g, hg, hxg⟩ := ho x hx
  obtain ⟨j, hj⟩ := List.mem_iff_getElem?.mp hg
  by_cases hij : j = i
  · rw [hij, hi] at hj
    cases hj
    exact ⟨_, List.mem_set hlt _, List.mem_filter.mpr ⟨hxg, hkeep⟩⟩
  · refine ⟨g, List.mem_iff_getElem?.mpr ⟨j, ?_⟩, hxg⟩
    rw [Ledger.giveBack, List.getElem?_set_ne (Ne.symm hij), hj]

/-- Once nobody holds anything, nothing is entered. -/
theorem Owned.taken_eq_nil (ho : Owned l) (h : ∀ g ∈ l.held, g = []) : l.taken = [] := by
  refine List.eq_nil_iff_forall_not_mem.mpr fun x hx => ?_
  obtain ⟨g, hg, hxg⟩ := ho x hx
  rw [h g hg] at hxg
  exact List.not_mem_nil hxg

theorem Entered.join (h : Entered l) : Entered l.join := by
  intro g hg x hx
  rcases List.mem_append.mp hg with hg | hg
  · exact h g hg x hx
  · rw [List.mem_singleton.mp hg] at hx
    exact absurd hx List.not_mem_nil

theorem Entered.grant (he : Entered l) {i : Nat} {h : List α} (hi : l.held[i]? = some h)
    (xs : List α) : Entered (l.grant i h xs) := by
  intro g hg x hx
  rcases List.mem_or_eq_of_mem_set hg with hg | rfl
  · exact List.mem_append_left _ (he g hg x hx)
  · rcases List.mem_append.mp hx with hx | hx
    · exact List.mem_append_left _ (he h (List.mem_of_getElem? hi) x hx)
    · exact List.mem_append_right _ hx

theorem Entered.giveBack [BEq α] [LawfulBEq α] (he : Entered l) {i : Nat} {h xs : List α}
    (hi : l.held[i]? = some h) (hsole : l.Sole i xs) : Entered (l.giveBack i h xs) := by
  intro g hg x hx
  obtain ⟨j, hj⟩ := List.mem_iff_getElem?.mp hg
  rcases Slots.getElem?_set_cases hj with ⟨rfl, rfl⟩ | ⟨hne, hj⟩
  · obtain ⟨hx, hkeep⟩ := List.mem_filter.mp hx
    exact List.mem_filter.mpr ⟨he h (List.mem_of_getElem? hi) x hx, hkeep⟩
  · refine List.mem_filter.mpr ⟨he g (List.mem_of_getElem? hj) x hx, ?_⟩
    exact decide_eq_true fun hin => hsole j g hj hne x hin hx

/-- What is given back stays entered for nobody. -/
theorem Entered.giveBack_iff [BEq α] [LawfulBEq α] (he : Entered l) {i : Nat} {h xs : List α}
    (hi : l.held[i]? = some h) : Entered (l.giveBack i h xs) ↔ l.Sole i xs := by
  refine ⟨fun hent j g hj hne x hx hxg => ?_, he.giveBack hi⟩
  have hg : g ∈ (l.giveBack i h xs).held := by
    refine List.mem_iff_getElem?.mpr ⟨j, ?_⟩
    rw [Ledger.giveBack, List.getElem?_set_ne hne.symm, hj]
  exact of_decide_eq_true (List.mem_filter.mp (hent g hg x hxg)).2 hx

variable {clash : α → α → Prop}

theorem getElem?_join {j : Nat} {g : List α} (hj : l.join.held[j]? = some g) :
    l.held[j]? = some g ∨ g = [] := by
  rw [Ledger.join, List.getElem?_append] at hj
  split_ifs at hj with hlt
  · exact Or.inl hj
  · exact Or.inr (List.mem_singleton.mp (List.mem_of_getElem? hj))

theorem Exclusive.join (h : Exclusive clash l) : Exclusive clash l.join := by
  intro i j hi hj hne hi' hj' x hx y hy
  rcases getElem?_join hi' with hi' | rfl
  · rcases getElem?_join hj' with hj' | rfl
    · exact h i j hi hj hne hi' hj' x hx y hy
    · exact absurd hy List.not_mem_nil
  · exact absurd hx List.not_mem_nil

/-- What is granted clashes with nothing entered. -/
theorem Exclusive.grant (hx : Exclusive clash l) (he : Entered l)
    (hsymm : ∀ x y, clash x y → clash y x) {i : Nat} {h xs : List α}
    (hi : l.held[i]? = some h) (hfree : ∀ x ∈ xs, ∀ y ∈ l.taken, ¬clash x y) :
    Exclusive clash (l.grant i h xs) := by
  have hother : ∀ (j : Nat) (g : List α), j ≠ i → l.held[j]? = some g →
      ∀ x ∈ h ++ xs, ∀ y ∈ g, ¬clash x y := by
    intro j g hne hj x hxin y hy
    rcases List.mem_append.mp hxin with hxin | hxin
    · exact hx i j h g (Ne.symm hne) hi hj x hxin y hy
    · exact hfree x hxin y (he g (List.mem_of_getElem? hj) y hy)
  intro j k hj hk hne hj' hk' x hxin y hy
  rcases Slots.getElem?_set_cases hj' with ⟨rfl, rfl⟩ | ⟨hji, hold⟩
  · rcases Slots.getElem?_set_cases hk' with ⟨rfl, rfl⟩ | ⟨hki, hold'⟩
    · exact absurd rfl hne
    · exact hother k hk hki hold' x hxin y hy
  · rcases Slots.getElem?_set_cases hk' with ⟨rfl, rfl⟩ | ⟨hki, hold'⟩
    · exact fun hc => hother j hj hji hold y hy x hxin (hsymm _ _ hc)
    · exact hx j k hj hk hne hold hold' x hxin y hy

theorem Exclusive.giveBack [BEq α] [LawfulBEq α] (hx : Exclusive clash l) {i : Nat} {h : List α}
    (hi : l.held[i]? = some h) (xs : List α) : Exclusive clash (l.giveBack i h xs) := by
  have hold : ∀ (j : Nat) (g : List α), (l.giveBack i h xs).held[j]? = some g →
      ∃ g', l.held[j]? = some g' ∧ ∀ x ∈ g, x ∈ g' := by
    intro j g hj
    rcases Slots.getElem?_set_cases hj with ⟨rfl, rfl⟩ | ⟨-, hj⟩
    · exact ⟨h, hi, fun x hx => List.mem_of_mem_filter hx⟩
    · exact ⟨g, hj, fun x hx => hx⟩
  intro j k hj hk hne hj' hk' x hxin y hy
  obtain ⟨g, hg, hsub⟩ := hold j hj hj'
  obtain ⟨g', hg', hsub'⟩ := hold k hk hk'
  exact hx j k g g' hne hg hg' x (hsub x hxin) y (hsub' y hy)

end Ledger

end Leases
