import Mathlib.Tactic

/-
  Lists that grow at the end and change one slot at a time, as a table of numbered parties does.
-/

namespace Slots

variable {α : Type*} {l : List α} {i j : Nat} {a b : α}

/-- A slot after a change is the changed one or an old one. -/
theorem getElem?_set_cases (h : (l.set i a)[j]? = some b) :
    j = i ∧ b = a ∨ j ≠ i ∧ l[j]? = some b := by
  rw [List.getElem?_set] at h
  split_ifs at h with heq hlt
  · exact .inl ⟨heq.symm, (Option.some.inj h).symm⟩
  · exact .inr ⟨fun hji => heq hji.symm, h⟩

theorem getElem?_set_self (h : l[i]? = some b) : (l.set i a)[i]? = some a := by
  obtain ⟨hlt, -⟩ := List.getElem?_eq_some_iff.mp h
  rw [List.getElem?_set, if_pos rfl, if_pos hlt]

/-- A slot set to what it has. -/
theorem set_of_getElem? (h : l[i]? = some b) : l.set i b = l := by
  obtain ⟨hlt, rfl⟩ := List.getElem?_eq_some_iff.mp h
  exact List.set_getElem_self hlt

/-- A change that `f` does not see. -/
theorem map_set_of_eq {β : Type*} (h : l[i]? = some b) {f : α → β} (hf : f a = f b) :
    (l.set i a).map f = l.map f := by
  rw [List.map_set, hf]
  refine set_of_getElem? ?_
  rw [List.getElem?_map, h]
  rfl

theorem getElem?_set_ne (hj : j ≠ i) : (l.set i a)[j]? = l[j]? := by
  rw [List.getElem?_set, if_neg hj.symm]

/-- What holds of all slots after a change, -/
theorem forall_set {P : α → Prop} (h : l[i]? = some b) :
    (∀ x ∈ l.set i a, P x) ↔ P a ∧ ∀ j x, j ≠ i → l[j]? = some x → P x := by
  constructor
  · intro hall
    refine ⟨hall a (List.mem_of_getElem? (getElem?_set_self h)), fun j x hji hj => ?_⟩
    exact hall x (List.mem_of_getElem? ((getElem?_set_ne hji).trans hj))
  · rintro ⟨ha, hrest⟩ x hx
    obtain ⟨j, hj⟩ := List.mem_iff_getElem?.mp hx
    rcases getElem?_set_cases hj with ⟨-, rfl⟩ | ⟨hji, hj⟩
    · exact ha
    · exact hrest j x hji hj

/-- and before it. -/
theorem forall_iff {P : α → Prop} (h : l[i]? = some b) :
    (∀ x ∈ l, P x) ↔ P b ∧ ∀ j x, j ≠ i → l[j]? = some x → P x := by
  rw [← forall_set h, set_of_getElem? h]

/-- A slot after a growth is an old one or the new one. -/
theorem getElem?_concat_cases (h : (l ++ [a])[i]? = some b) :
    l[i]? = some b ∨ i = l.length ∧ b = a := by
  rw [List.getElem?_append] at h
  split_ifs at h with hlt
  · exact .inl h
  · rw [List.getElem?_singleton] at h
    split_ifs at h with hzero
    exact .inr ⟨by omega, (Option.some.inj h).symm⟩

theorem getElem?_concat_old (h : l[i]? = some b) : (l ++ [a])[i]? = some b := by
  obtain ⟨hlt, -⟩ := List.getElem?_eq_some_iff.mp h
  rw [List.getElem?_append_left hlt, h]

theorem getElem?_concat_new : (l ++ [a])[l.length]? = some a := by
  rw [List.getElem?_append_right le_rfl, Nat.sub_self, List.getElem?_cons_zero]

/-- What a change of one slot does to a sum over all of them, -/
theorem sum_map_set (h : l[i]? = some b) (f : α → Nat) (a : α) :
    ((l.set i a).map f).sum + f b = (l.map f).sum + f a := by
  induction l generalizing i with
  | nil => cases h
  | cons c l ih =>
    cases i with
    | zero =>
      obtain rfl := Option.some.inj h
      rw [List.set_cons_zero, List.map_cons, List.map_cons, List.sum_cons, List.sum_cons]
      omega
    | succ i =>
      have hrest := ih (i := i) h
      rw [List.set_cons_succ, List.map_cons, List.map_cons, List.sum_cons, List.sum_cons]
      omega

/-- and to a count. -/
theorem countP_set (h : l[i]? = some b) (p : α → Bool) (a : α) :
    (l.set i a).countP p + (if p b then 1 else 0) = l.countP p + (if p a then 1 else 0) := by
  have hcount (l : List α) : l.countP p = (l.map fun x => if p x then 1 else 0).sum := by
    induction l with
    | nil => rfl
    | cons c l ih =>
      rw [List.countP_cons, List.map_cons, List.sum_cons, ih, Nat.add_comm]
  rw [hcount, hcount]
  exact sum_map_set h _ a

/-- Of two conditions, the stronger one counts as many only where they agree. -/
theorem countP_eq_iff {p q : α → Bool} (himp : ∀ x ∈ l, p x = true → q x = true) :
    l.countP q = l.countP p ↔ ∀ x ∈ l, q x = true → p x = true := by
  constructor
  · intro heq x hx hq
    have hfilter : l.filter p = (l.filter q).filter p := by
      rw [List.filter_filter]
      refine List.filter_congr fun y hy => ?_
      cases hp : p y with
      | true => rw [himp y hy hp, Bool.and_self]
      | false => rw [Bool.false_and]
    rw [List.countP_eq_length_filter, List.countP_eq_length_filter, hfilter] at heq
    have hall := List.length_filter_eq_length_iff.mp heq.symm
    exact hall x (List.mem_filter.mpr ⟨hx, hq⟩)
  · exact fun h => List.countP_congr fun x hx => ⟨h x hx, himp x hx⟩

/-- A list is cut at the first match: nothing before it matches. -/
theorem split_of_findIdx? {p : α → Bool} (h : l.findIdx? p = some i) :
    ∃ pre a post, l = pre ++ a :: post ∧ pre.length = i ∧ (∀ x ∈ pre, p x = false) ∧
      p a = true := by
  obtain ⟨hlt, ha, hfirst⟩ := List.findIdx?_eq_some_iff_getElem.mp h
  refine ⟨l.take i, l[i], l.drop (i + 1), ?_, List.length_take_of_le hlt.le, ?_, ha⟩
  · rw [← List.drop_eq_getElem_cons hlt, List.take_append_drop]
  · intro x hx
    obtain ⟨j, hj, rfl⟩ := List.mem_take_iff_getElem.mp hx
    exact Bool.eq_false_iff.mpr (hfirst j (by omega))

/-- Where the first match is changed, what is before it and behind it stays. -/
theorem modify_of_findIdx? {α : Type*} {p : α → Bool} {l : List α} {i : Nat}
    (h : l.findIdx? p = some i) (f : α → α) :
    ∃ pre a post, l = pre ++ a :: post ∧ (∀ x ∈ pre, p x = false) ∧ l.find? p = some a ∧
      l.modify i f = pre ++ f a :: post := by
  obtain ⟨pre, a, post, rfl, rfl, hpre, ha⟩ := split_of_findIdx? h
  refine ⟨pre, a, post, rfl, hpre, ?_, ?_⟩
  · have hnone : pre.find? p = none := List.find?_eq_none.mpr fun x hx => by simp [hpre x hx]
    rw [List.find?_append, hnone, Option.none_or, List.find?_cons_of_pos ha]
  · exact List.modifyTailIdx_add (List.modifyHead f) 0 pre (a :: post)

/-- The first match is taken out, and what is before it and behind it stays. -/
theorem eraseIdx_of_findIdx? {p : α → Bool} (h : l.findIdx? p = some i) :
    ∃ pre a post, l = pre ++ a :: post ∧ (∀ x ∈ pre, ¬p x = true) ∧ p a = true ∧ l[i]? = some a ∧
      l.eraseIdx i = pre ++ post := by
  obtain ⟨pre, a, post, rfl, rfl, hpre, ha⟩ := split_of_findIdx? h
  refine ⟨pre, a, post, rfl, fun x hx => by simp [hpre x hx], ha, ?_, ?_⟩
  · rw [List.getElem?_append_right le_rfl, Nat.sub_self, List.getElem?_cons_zero]
  · rw [List.eraseIdx_append_of_length_le le_rfl, Nat.sub_self, List.eraseIdx_cons_zero]

end Slots
