import Mathlib.Data.List.DropRight
import Mathlib.Data.List.Nodup
import Mathlib.Tactic

/-
  A memory of the last `n` elements of a stream.

  `push` forgets the oldest element once `n` are held, so what is held are the last `n`
  elements of the stream (`push_rtake`). A stream that only ever takes what is not held is
  `Spaced`: two equal elements stand more than `n` apart, and a window of `n` elements has no
  element twice (`Spaced.nodup`).
-/

namespace Recent

variable {α : Type*} {n : Nat} {l : List α} {x : α}

def push (n : Nat) (recent : List α) (x : α) : List α :=
  (if recent.length = n then recent.tail else recent) ++ [x]

/-- Equal elements stand more than `n` apart. -/
def Spaced (n : Nat) (l : List α) : Prop :=
  ∀ i j, i < j → j < l.length → j ≤ i + n → l[i]? ≠ l[j]?

theorem push_rtake (hn : 0 < n) : push n (l.rtake n) x = (l ++ [x]).rtake n := by
  simp only [push, List.rtake_eq_reverse_take_reverse, List.reverse_append, List.reverse_singleton,
    List.singleton_append]
  obtain ⟨n, rfl⟩ := Nat.exists_eq_succ_of_ne_zero hn.ne'
  rw [List.take_succ_cons, List.reverse_cons]
  congr 1
  split_ifs with hfull
  · rw [List.length_reverse, List.length_take] at hfull
    rw [List.tail_reverse, List.dropLast_eq_take, List.take_take, List.length_take]
    congr 2
    omega
  · rw [List.length_reverse, List.length_take] at hfull
    rw [List.take_of_length_le (by omega), List.take_of_length_le (by omega)]

theorem spaced_nil : Spaced n ([] : List α) := fun _ _ _ hj => absurd hj (Nat.not_lt_zero _)

theorem mem_rtake {i : Nat} (hi : i < l.length) (hlast : l.length ≤ i + n) : l[i] ∈ l.rtake n := by
  rw [List.rtake]
  refine List.mem_drop_iff_getElem.mpr ⟨i - (l.length - n), by omega, ?_⟩
  congr 1
  omega

theorem Spaced.concat (h : Spaced n l) (hx : x ∉ l.rtake n) : Spaced n (l ++ [x]) := by
  intro i j hij hj hnear heq
  rw [List.length_append, List.length_singleton] at hj
  have hi : i < l.length := by omega
  rw [List.getElem?_append_left hi] at heq
  by_cases hlast : j < l.length
  · rw [List.getElem?_append_left hlast] at heq
    exact h i j hij hlast hnear heq
  · obtain rfl : j = l.length := by omega
    rw [List.getElem?_concat_length, List.getElem?_eq_getElem hi] at heq
    exact hx (Option.some.inj heq ▸ mem_rtake hi (by omega))

theorem Spaced.window {w : List α} (h : Spaced n l) (hw : w <:+: l) : Spaced n w := by
  obtain ⟨before, after, rfl⟩ := hw
  intro i j hij hj hnear heq
  have hshift : ∀ k, k < w.length → (before ++ w ++ after)[before.length + k]? = w[k]? := by
    intro k hk
    rw [List.append_assoc, List.getElem?_append_right (Nat.le_add_right _ _),
      Nat.add_sub_cancel_left, List.getElem?_append_left hk]
  refine h (before.length + i) (before.length + j) (by omega) ?_ (by omega) ?_
  · simp only [List.length_append]
    omega
  · rw [hshift i (by omega), hshift j hj, heq]

/-- A window of `n` elements, even of `n + 1`, holds no element twice. -/
theorem Spaced.nodup {w : List α} (h : Spaced n l) (hw : w <:+: l) (hlen : w.length ≤ n + 1) :
    w.Nodup := by
  rw [List.nodup_iff_getElem?_ne_getElem?]
  exact fun i j hij hj => h.window hw i j hij hj (by omega)

end Recent
