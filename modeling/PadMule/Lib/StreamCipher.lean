import Mathlib.Tactic

/-
  Stream ciphers: a state that yields one key at a time, mixed with one token each.

  `apply next mix s xs` is what becomes of the tokens `xs` from the state `s`, and the state behind
  them. Tokens that follow each other meet the keys that follow each other (`apply_append`), and
  what is cut off does not change what stays (`apply_take`). A mix that can be undone key by key is
  undone by the same stream (`apply_apply`).
-/

namespace StreamCipher

variable {σ κ α β : Type*} (next : σ → κ × σ) (mix : κ → α → β)

def apply : σ → List α → List β × σ
  | s, [] => ([], s)
  | s, x :: xs => (mix (next s).1 x :: (apply (next s).2 xs).1, (apply (next s).2 xs).2)

theorem apply_append (s : σ) (xs ys : List α) :
    apply next mix s (xs ++ ys) =
      ((apply next mix s xs).1 ++ (apply next mix (apply next mix s xs).2 ys).1,
        (apply next mix (apply next mix s xs).2 ys).2) := by
  induction xs generalizing s with
  | nil => rfl
  | cons x xs ih => simp only [List.cons_append, apply, ih]

theorem apply_take (s : σ) (xs : List α) (n : Nat) :
    (apply next mix s (xs.take n)).1 = (apply next mix s xs).1.take n := by
  induction xs generalizing s n with
  | nil => cases n <;> rfl
  | cons x xs ih =>
    cases n with
    | zero => rfl
    | succ n => simp only [List.take_succ_cons, apply, ih]

theorem length_apply (s : σ) (xs : List α) : (apply next mix s xs).1.length = xs.length := by
  induction xs generalizing s with
  | nil => rfl
  | cons x xs ih => rw [apply, List.length_cons, List.length_cons, ih]

/-- What was mixed with the keys comes back under the same keys. -/
theorem apply_apply {unmix : κ → β → α} (h : ∀ k x, unmix k (mix k x) = x) (s : σ) (xs : List α) :
    (apply next unmix s (apply next mix s xs).1).1 = xs := by
  induction xs generalizing s with
  | nil => rfl
  | cons x xs ih => simp only [apply, h, ih]

/-- Undoing the mix goes as far along the stream as the mix did. -/
theorem apply_apply_snd (unmix : κ → β → α) (s : σ) (xs : List α) :
    (apply next unmix s (apply next mix s xs).1).2 = (apply next mix s xs).2 := by
  induction xs generalizing s with
  | nil => rfl
  | cons x xs ih => simp only [apply, ih]

end StreamCipher
