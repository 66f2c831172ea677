import Mathlib.Data.List.Count
import Mathlib.Tactic

/-
  A number of slots, given in order to those of a list that want one.

  `refused` tells who wants a slot and gets none: the first `n` that want one get it, so an element
  is refused exactly when `n` others stand in front of it (`getElem?_refused`).
-/

namespace Quota

variable {α : Type*} {wants : α → Bool} {n m : Nat} {l l' : List α} {x : α} {i : Nat}

def refused (wants : α → Bool) : Nat → List α → List Bool
  | _, [] => []
  | n, x :: l =>
    if wants x then decide (n = 0) :: refused wants (n - 1) l
    else false :: refused wants n l

@[simp] theorem length_refused (wants : α → Bool) (n : Nat) (l : List α) :
    (refused wants n l).length = l.length := by
  induction l generalizing n with
  | nil => rfl
  | cons x l ih =>
    rw [refused]
    split_ifs
    · rw [List.length_cons, List.length_cons, ih]
    · rw [List.length_cons, List.length_cons, ih]

/-- What is left over goes to the second part. -/
theorem refused_append (n : Nat) (l l' : List α) :
    refused wants n (l ++ l') = refused wants n l ++ refused wants (n - l.countP wants) l' := by
  induction l generalizing n with
  | nil => rfl
  | cons x l ih =>
    rw [List.cons_append, refused, refused, List.countP_cons]
    split_ifs
    · rw [ih, List.cons_append, Nat.sub_sub, Nat.add_comm 1]
    · rw [ih, List.cons_append, Nat.add_zero]

/-- One is refused if it wants a slot and as many as there are slots want one before it. -/
theorem getElem?_refused (n : Nat) (l : List α) (i : Nat) :
    (refused wants n l)[i]? =
      l[i]?.map fun x => wants x && decide (n ≤ (l.take i).countP wants) := by
  induction l generalizing n i with
  | nil => rfl
  | cons x l ih =>
    rw [refused]
    cases i with
    | zero =>
      split_ifs with hx
      · simp [hx]
      · simp [hx]
    | succ i =>
      split_ifs with hx
      · rw [List.getElem?_cons_succ, List.getElem?_cons_succ, ih, List.take_succ_cons,
          List.countP_cons_of_pos hx]
        simp only [Nat.sub_le_iff_le_add]
      · rw [List.getElem?_cons_succ, List.getElem?_cons_succ, ih, List.take_succ_cons,
          List.countP_cons_of_neg hx]

/-- The slots that two classes are given, each from its own. -/
theorem countP_zip_refused {p q : α → Bool} (hpq : ∀ x, p x = true → q x = false) (n m : Nat)
    (l : List α) :
    ((l.zip (List.zipWith or (refused p n l) (refused q m l))).countP
        fun e => (p e.1 || q e.1) && !e.2) =
      min n (l.countP p) + min m (l.countP q) := by
  induction l generalizing n m with
  | nil => simp [refused]
  | cons x l ih =>
    rw [refused, refused]
    cases hp : p x with
    | true =>
      have hq := hpq x hp
      rw [if_pos rfl, hq, if_neg Bool.false_ne_true, List.zipWith_cons_cons, List.zip_cons_cons,
        List.countP_cons, ih, List.countP_cons_of_pos hp, List.countP_cons_of_neg (by simp [hq])]
      cases n with
      | zero => simp [hp]
      | succ n =>
        simp [hp]
        omega
    | false =>
      rw [if_neg Bool.false_ne_true, List.countP_cons_of_neg (by simp [hp])]
      cases hq : q x with
      | true =>
        rw [if_pos rfl, List.zipWith_cons_cons, List.zip_cons_cons, List.countP_cons, ih,
          List.countP_cons_of_pos hq]
        cases m with
        | zero => simp [hq]
        | succ m =>
          simp [hq]
          omega
      | false =>
        rw [if_neg Bool.false_ne_true, List.zipWith_cons_cons, List.zip_cons_cons, List.countP_cons,
          ih, List.countP_cons_of_neg (by simp [hq])]
        simp [hp, hq]

end Quota
