import Mathlib.Data.Finset.Dedup
import Mathlib.Tactic

/-
  Lists as maps in which the first entry of a key wins.

  `first key l k` is that entry. One put behind the others only shows under a key that has none
  (`first_concat`), taking out all entries of some keys hides these and no other
  (`first_filter`), and the entry found is where the list can be split (`first_eq_some_iff`).
  `news key seen l` are the entries that bring a key that is neither in `seen` nor in front of them;
  they are the first ones of these keys (`mem_news`).
-/

namespace FirstWins

variable {α κ : Type*} [DecidableEq κ] {key : α → κ}

def first (key : α → κ) (l : List α) (k : κ) : Option α := l.find? fun a => key a = k

theorem first_eq_none_iff {l : List α} {k : κ} : first key l k = none ↔ ∀ a ∈ l, key a ≠ k := by
  simp [first]

theorem first_eq_some_iff {l : List α} {k : κ} {a : α} :
    first key l k = some a ↔
      ∃ before after, l = before ++ a :: after ∧ key a = k ∧ ∀ b ∈ before, key b ≠ k := by
  rw [first, List.find?_eq_some_iff_append]
  constructor
  · rintro ⟨hkey, before, after, hsplit, hbefore⟩
    exact ⟨before, after, hsplit, by simpa using hkey, fun b hb => by simpa using hbefore b hb⟩
  · rintro ⟨before, after, hsplit, hkey, hbefore⟩
    exact ⟨by simpa using hkey, before, after, hsplit, fun b hb => by simpa using hbefore b hb⟩

theorem first_concat {l : List α} {a : α} {k : κ} :
    first key (l ++ [a]) k = (first key l k).or (if key a = k then some a else none) := by
  rw [first, List.find?_append, first, List.find?_singleton]
  simp

theorem first_filter {l : List α} {keep : κ → Bool} {k : κ} :
    first key (l.filter fun a => keep (key a)) k = if keep k then first key l k else none := by
  rw [first, List.find?_filter]
  split_ifs with hkeep
  · refine congrArg (fun p => l.find? p) (funext fun a => ?_)
    by_cases hk : key a = k <;> simp [hk, hkeep]
  · refine List.find?_eq_none.mpr fun a _ => ?_
    by_cases hk : key a = k <;> simp [hk, hkeep]

def news (key : α → κ) (seen : Finset κ) : List α → List α
  | [] => []
  | a :: l => if key a ∈ seen then news key seen l else a :: news key (insert (key a) seen) l

theorem mem_news {seen : Finset κ} {l : List α} {a : α} :
    a ∈ news key seen l ↔ key a ∉ seen ∧ first key l (key a) = some a := by
  induction l generalizing seen with
  | nil => simp [news, first]
  | cons b l ih =>
    rw [news]
    by_cases hkey : key b = key a
    · have hfirst : first key (b :: l) (key a) = some b := List.find?_cons_of_pos (by simp [hkey])
      rw [hfirst, hkey, Option.some.injEq]
      split_ifs with hseen
      · exact iff_of_false (fun h => (ih.mp h).1 hseen) fun h => h.1 hseen
      · rw [List.mem_cons, ih, and_iff_right hseen]
        exact ⟨fun h => h.elim Eq.symm fun h => absurd (Finset.mem_insert_self _ _) h.1,
          fun h => .inl h.symm⟩
    · have hfirst : first key (b :: l) (key a) = first key l (key a) :=
        List.find?_cons_of_neg (by simp [hkey])
      have hne : a ≠ b := fun h => hkey (h ▸ rfl)
      rw [hfirst]
      split_ifs with hseen
      · exact ih
      · rw [List.mem_cons, ih, or_iff_right hne, Finset.mem_insert, not_or,
          and_iff_right (Ne.symm hkey)]

theorem news_subset {seen : Finset κ} {l : List α} {a : α} (h : a ∈ news key seen l) : a ∈ l :=
  List.mem_of_find?_eq_some (mem_news.mp h).2

theorem nodup_news {seen : Finset κ} {l : List α} : ((news key seen l).map key).Nodup := by
  induction l generalizing seen with
  | nil => exact List.nodup_nil
  | cons b l ih =>
    rw [news]
    split_ifs
    · exact ih
    · rw [List.map_cons, List.nodup_cons]
      refine ⟨fun hmem => ?_, ih⟩
      obtain ⟨a, ha, hkey⟩ := List.mem_map.mp hmem
      exact (mem_news.mp ha).1 (hkey ▸ Finset.mem_insert_self _ _)

theorem length_news_le {seen : Finset κ} {l : List α} : (news key seen l).length ≤ l.length := by
  induction l generalizing seen with
  | nil => exact le_rfl
  | cons b l ih =>
    rw [news]
    split_ifs
    · exact ih.trans (Nat.le_succ _)
    · exact Nat.succ_le_succ ih

/-- The keys of the news are those of the list that are not in `seen`. -/
theorem toFinset_news {seen : Finset κ} {l : List α} :
    ((news key seen l).map key).toFinset = (l.map key).toFinset \ seen := by
  induction l generalizing seen with
  | nil => exact (Finset.empty_sdiff seen).symm
  | cons b l ih =>
    rw [news, List.map_cons, List.toFinset_cons]
    split_ifs with hseen
    · rw [ih, Finset.insert_sdiff_of_mem _ hseen]
    · rw [List.map_cons, List.toFinset_cons, ih, Finset.insert_sdiff_of_notMem _ hseen]
      ext k
      by_cases hk : k = key b <;> simp [hk]

theorem length_news {seen : Finset κ} {l : List α} :
    (news key seen l).length = ((l.map key).toFinset \ seen).card := by
  rw [← toFinset_news, List.toFinset_card_of_nodup nodup_news, List.length_map]

end FirstWins
