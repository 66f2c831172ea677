import Mathlib.Tactic

/-
  Root paths of a binary tree, written as positive numbers.

  A path is a list of directions from the root. Its number is a leading one followed
  by one bit for each direction, most significant first, so the root is `1` and each
  edge appends one bit. `toPath` reads the directions back.
-/

namespace BitPath

/-- The directions `p` appended as bits to the number `i`. -/
def extend (i : Nat) (p : List Bool) : Nat := p.foldl (fun i b => 2 * i + b.toNat) i

/-- The number of the path `p`. -/
def ofPath (p : List Bool) : Nat := extend 1 p

/-- The value of the bits of `p` alone. -/
def bits (p : List Bool) : Nat := extend 0 p

/-- The low `k` bits of `n`, most significant first. -/
def toPath : Nat → Nat → List Bool
  | 0, _ => []
  | k + 1, n => (n / 2 ^ k % 2 == 1) :: toPath k n

@[simp] theorem extend_nil (i : Nat) : extend i [] = i := rfl

@[simp] theorem extend_cons (i : Nat) (b : Bool) (p : List Bool) :
    extend i (b :: p) = extend (2 * i + b.toNat) p := rfl

theorem extend_append (i : Nat) (p q : List Bool) :
    extend i (p ++ q) = extend (extend i p) q := by
  simp [extend, List.foldl_append]

theorem ofPath_append_singleton (p : List Bool) (b : Bool) :
    ofPath (p ++ [b]) = 2 * ofPath p + b.toNat := by
  simp [ofPath, extend_append]

theorem extend_eq (i : Nat) (p : List Bool) : extend i p = i * 2 ^ p.length + bits p := by
  induction p generalizing i with
  | nil => simp [bits]
  | cons b p ih =>
    rw [bits, extend_cons, extend_cons, ih, ih (2 * 0 + _), List.length_cons, pow_succ]
    ring

theorem bits_cons (b : Bool) (p : List Bool) :
    bits (b :: p) = b.toNat * 2 ^ p.length + bits p := by
  rw [bits, extend_cons, extend_eq]
  simp

theorem bits_lt (p : List Bool) : bits p < 2 ^ p.length := by
  induction p with
  | nil => simp [bits]
  | cons b p ih =>
    rw [bits_cons, List.length_cons, pow_succ]
    cases b <;> simp <;> omega

theorem ofPath_eq (p : List Bool) : ofPath p = 2 ^ p.length + bits p := by
  rw [ofPath, extend_eq, one_mul]

theorem le_ofPath (p : List Bool) : 2 ^ p.length ≤ ofPath p := by
  rw [ofPath_eq]
  exact Nat.le_add_right _ _

theorem ofPath_lt (p : List Bool) : ofPath p < 2 ^ (p.length + 1) := by
  have := bits_lt p
  rw [ofPath_eq, pow_succ]
  omega

theorem ofPath_lt_of_le {p : List Bool} {k : Nat} (h : p.length ≤ k) :
    ofPath p < 2 ^ (k + 1) :=
  (ofPath_lt p).trans_le (Nat.pow_le_pow_right (by decide) (by omega))

theorem log2_ofPath (p : List Bool) : (ofPath p).log2 = p.length := by
  have hne : ofPath p ≠ 0 := by
    have := le_ofPath p
    have := Nat.two_pow_pos p.length
    omega
  rw [Nat.log2_eq_iff hne]
  exact ⟨le_ofPath p, ofPath_lt p⟩

theorem length_toPath (k n : Nat) : (toPath k n).length = k := by
  induction k with
  | zero => rfl
  | succ k ih => simp [toPath, ih]

theorem bits_toPath (k n : Nat) : bits (toPath k n) = n % 2 ^ k := by
  induction k with
  | zero => simp [toPath, bits, Nat.mod_one]
  | succ k ih =>
    have hb : (n / 2 ^ k % 2 == 1).toNat = n / 2 ^ k % 2 := by
      rcases Nat.mod_two_eq_zero_or_one (n / 2 ^ k) with h | h <;> simp [h]
    rw [toPath, bits_cons, hb, length_toPath, ih, pow_succ, Nat.mod_mul]
    ring

/-- Every positive number is the number of the path its bits spell. -/
theorem ofPath_toPath {n : Nat} (h : n ≠ 0) : ofPath (toPath n.log2 n) = n := by
  obtain ⟨hle, hlt⟩ := (Nat.log2_eq_iff h).mp rfl
  have hdiv : n / 2 ^ n.log2 = 1 :=
    Nat.div_eq_of_lt_le (by omega) (by rw [pow_succ] at hlt; omega)
  have hsplit := Nat.mod_add_div n (2 ^ n.log2)
  rw [hdiv] at hsplit
  rw [ofPath_eq, bits_toPath, length_toPath]
  omega

end BitPath
