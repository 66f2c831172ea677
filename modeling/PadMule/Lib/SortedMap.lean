import Mathlib.Order.Defs.LinearOrder
import Mathlib.Tactic

/-
  An ordered map as its ascending list of entries. `List.lookup` reads it.
-/

namespace SortedMap

variable {κ ν : Type*} [LinearOrder κ]

/-- Insert, replacing the value of a key already present. -/
def insert (k : κ) (v : ν) : List (κ × ν) → List (κ × ν)
  | [] => [(k, v)]
  | e :: l =>
    if k < e.1 then (k, v) :: e :: l
    else if k = e.1 then (k, v) :: l
    else e :: insert k v l

/-- A key above all others goes last. -/
theorem insert_of_forall_lt {k : κ} (v : ν) {l : List (κ × ν)} (h : ∀ e ∈ l, e.1 < k) :
    insert k v l = l ++ [(k, v)] := by
  induction l with
  | nil => rfl
  | cons e l ih =>
    obtain ⟨he, hl⟩ := List.forall_mem_cons.mp h
    rw [insert, if_neg (not_lt.mpr he.le), if_neg he.ne', ih hl, List.cons_append]

def containsKey (k : κ) (l : List (κ × ν)) : Bool := l.any fun e => e.1 = k

theorem containsKey_iff {k : κ} {l : List (κ × ν)} : containsKey k l = true ↔ ∃ v, (k, v) ∈ l := by
  unfold containsKey
  rw [List.any_eq_true]
  constructor
  · rintro ⟨⟨k', v⟩, he, hk⟩
    exact ⟨v, of_decide_eq_true hk ▸ he⟩
  · rintro ⟨v, he⟩
    exact ⟨(k, v), he, decide_eq_true rfl⟩

theorem containsKey_eq_false {k : κ} {l : List (κ × ν)} :
    containsKey k l = false ↔ ∀ e ∈ l, e.1 ≠ k := by
  unfold containsKey
  rw [List.any_eq_false]
  simp

/-- What is inserted, and what was there under other keys. -/
theorem mem_of_mem_insert {k : κ} {v : ν} {l : List (κ × ν)} {e : κ × ν} (h : e ∈ insert k v l) :
    e = (k, v) ∨ e ∈ l := by
  induction l with
  | nil => exact .inl (List.mem_singleton.mp h)
  | cons e' l ih =>
    rw [insert] at h
    split_ifs at h
    · exact List.mem_cons.mp h
    · exact (List.mem_cons.mp h).imp_right (List.mem_cons_of_mem _)
    · rcases List.mem_cons.mp h with rfl | h
      · exact .inr (List.mem_cons_self ..)
      · exact (ih h).imp_right (List.mem_cons_of_mem _)

theorem containsKey_insert (k k' : κ) (v : ν) (l : List (κ × ν)) :
    containsKey k (insert k' v l) = (decide (k' = k) || containsKey k l) := by
  induction l with
  | nil => rfl
  | cons e l ih =>
    rw [insert]
    split_ifs with hlt heq
    · rfl
    · subst heq
      simp [containsKey]
    · unfold containsKey at ih ⊢
      rw [List.any_cons, List.any_cons, ih, Bool.or_left_comm]

/-- The keys ascend. -/
def Sorted (l : List (κ × ν)) : Prop := l.Pairwise fun e e' => e.1 < e'.1

/-- A key has one entry. -/
theorem Sorted.eq_of_key {l : List (κ × ν)} (h : Sorted l) {e e' : κ × ν} (he : e ∈ l)
    (he' : e' ∈ l) (hkey : e.1 = e'.1) : e = e' := by
  have hnodup : (l.map Prod.fst).Nodup := List.pairwise_map.mpr (h.imp ne_of_lt)
  exact List.inj_on_of_nodup_map hnodup he he' hkey

/-- A new key is added to the entries there are. -/
theorem perm_insert {k : κ} (v : ν) {l : List (κ × ν)} (h : ∀ e ∈ l, e.1 ≠ k) :
    (insert k v l).Perm ((k, v) :: l) := by
  induction l with
  | nil => exact List.Perm.refl _
  | cons e l ih =>
    obtain ⟨he, hl⟩ := List.forall_mem_cons.mp h
    rw [insert]
    split_ifs with hlt heq
    · exact List.Perm.refl _
    · exact absurd heq.symm he
    · exact ((ih hl).cons e).trans (List.Perm.swap _ _ _)

theorem mem_insert {k : κ} {v : ν} {l : List (κ × ν)} (h : ∀ e ∈ l, e.1 ≠ k) {e : κ × ν} :
    e ∈ insert k v l ↔ e = (k, v) ∨ e ∈ l := by
  rw [(perm_insert v h).mem_iff, List.mem_cons]

theorem Sorted.insert {k : κ} (v : ν) {l : List (κ × ν)} (hl : Sorted l) (h : ∀ e ∈ l, e.1 ≠ k) :
    Sorted (insert k v l) := by
  induction l with
  | nil => exact List.pairwise_singleton _ _
  | cons e l ih =>
    obtain ⟨he, hrest⟩ := List.forall_mem_cons.mp h
    obtain ⟨hfirst, hsorted⟩ := List.pairwise_cons.mp hl
    rw [SortedMap.insert]
    split_ifs with hlt heq
    · refine List.pairwise_cons.mpr ⟨fun e' he' => ?_, hl⟩
      rcases List.mem_cons.mp he' with rfl | he'
      · exact hlt
      · exact hlt.trans (hfirst e' he')
    · exact absurd heq.symm he
    · refine List.pairwise_cons.mpr ⟨fun e' he' => ?_, ih hsorted hrest⟩
      rcases (mem_insert hrest).mp he' with rfl | he'
      · exact lt_of_le_of_ne (not_lt.mp hlt) he
      · exact hfirst e' he'

/-- Give a key the value that is made of what it has. -/
def alter (k : κ) (f : Option ν → ν) : List (κ × ν) → List (κ × ν)
  | [] => [(k, f none)]
  | e :: l =>
    if k < e.1 then (k, f none) :: e :: l
    else if k = e.1 then (k, f (some e.2)) :: l
    else e :: alter k f l

theorem alter_of_absent {k : κ} (f : Option ν → ν) {l : List (κ × ν)} (h : ∀ e ∈ l, e.1 ≠ k) :
    alter k f l = insert k (f none) l := by
  induction l with
  | nil => rfl
  | cons e l ih =>
    obtain ⟨he, hl⟩ := List.forall_mem_cons.mp h
    rw [alter, insert, ih hl, if_neg (Ne.symm he), if_neg (Ne.symm he)]

theorem lookup_eq_none {k : κ} {l : List (κ × ν)} (h : ∀ e ∈ l, e.1 ≠ k) : l.lookup k = none :=
  List.lookup_eq_none_iff.mpr fun e he => by simpa using (h e he).symm

/-! ## Altering twice -/

theorem alter_alter (k : κ) (f g : Option ν → ν) (l : List (κ × ν)) :
    alter k f (alter k g l) = alter k (fun v => f (some (g v))) l := by
  induction l with
  | nil => simp [alter]
  | cons e l ih =>
    rw [alter, alter]
    split_ifs with hlt heq
    · simp [alter]
    · simp [alter]
    · rw [alter, if_neg hlt, if_neg heq, ih]

section Cons

variable {k j : κ} (f : Option ν → ν) (v : ν) (l : List (κ × ν))

theorem alter_of_lt (h : k < j) : alter k f ((j, v) :: l) = (k, f none) :: (j, v) :: l := by
  rw [alter, if_pos h]

theorem alter_of_eq : alter j f ((j, v) :: l) = (j, f (some v)) :: l := by
  rw [alter, if_neg (lt_irrefl _), if_pos rfl]

theorem alter_of_gt (h : j < k) : alter k f ((j, v) :: l) = (j, v) :: alter k f l := by
  rw [alter, if_neg h.asymm, if_neg h.ne']

theorem lookup_cons_of_ne (h : k ≠ j) : ((j, v) :: l).lookup k = l.lookup k := by
  rw [List.lookup_cons, beq_false_of_ne h]

end Cons

/-- Different keys do not see each other. -/
theorem alter_comm_of_lt {k k' : κ} (h : k < k') (f g : Option ν → ν) (l : List (κ × ν)) :
    alter k f (alter k' g l) = alter k' g (alter k f l) := by
  induction l with
  | nil =>
    show alter k f [(k', g none)] = alter k' g [(k, f none)]
    rw [alter_of_lt _ _ _ h, alter_of_gt _ _ _ h]
    rfl
  | cons e l ih =>
    obtain ⟨j, v⟩ := e
    rcases lt_trichotomy k j with hlt | rfl | hgt
    · rw [alter_of_lt f v l hlt, alter_of_gt g _ _ h]
      rcases lt_trichotomy k' j with hlt' | rfl | hgt'
      · rw [alter_of_lt g v l hlt', alter_of_lt f _ _ h]
      · rw [alter_of_eq, alter_of_lt f _ _ h]
      · rw [alter_of_gt g v l hgt', alter_of_lt f _ _ hlt]
    · rw [alter_of_gt g v l h, alter_of_eq, alter_of_eq, alter_of_gt g _ _ h]
    · have hgt' := hgt.trans h
      rw [alter_of_gt g v l hgt', alter_of_gt f v _ hgt, alter_of_gt f v l hgt,
        alter_of_gt g v _ hgt', ih]

theorem alter_comm {k k' : κ} (h : k ≠ k') (f g : Option ν → ν) (l : List (κ × ν)) :
    alter k f (alter k' g l) = alter k' g (alter k f l) := by
  rcases lt_or_gt_of_ne h with hlt | hgt
  · exact alter_comm_of_lt hlt f g l
  · exact (alter_comm_of_lt hgt g f l).symm

/-- Two alterations may be swapped, those of one key if they commute. -/
theorem alter_swap {k k' : κ} {f g : Option ν → ν}
    (h : k = k' → ∀ v, f (some (g v)) = g (some (f v))) (l : List (κ × ν)) :
    alter k f (alter k' g l) = alter k' g (alter k f l) := by
  by_cases heq : k = k'
  · subst heq
    rw [alter_alter, alter_alter]
    exact congrArg (alter k · l) (funext (h rfl))
  · exact alter_comm heq f g l

/-! ## What an alteration does to the keys -/

theorem mem_keys_alter {k k' : κ} (f : Option ν → ν) (l : List (κ × ν)) :
    k' ∈ (alter k f l).map Prod.fst ↔ k' = k ∨ k' ∈ l.map Prod.fst := by
  induction l with
  | nil => simp [alter]
  | cons e l ih =>
    obtain ⟨j, v⟩ := e
    rcases lt_trichotomy k j with hlt | rfl | hgt
    · rw [alter_of_lt f v l hlt, List.map_cons, List.mem_cons]
    · rw [alter_of_eq, List.map_cons, List.mem_cons, List.map_cons, List.mem_cons, or_self_left]
    · rw [alter_of_gt f v l hgt, List.map_cons, List.mem_cons, ih, List.map_cons, List.mem_cons,
        or_left_comm]

theorem Sorted.alter {l : List (κ × ν)} (hl : Sorted l) (k : κ) (f : Option ν → ν) :
    Sorted (alter k f l) := by
  induction l with
  | nil => exact List.pairwise_singleton _ _
  | cons e l ih =>
    obtain ⟨j, v⟩ := e
    obtain ⟨hfirst, hsorted⟩ := List.pairwise_cons.mp hl
    rcases lt_trichotomy k j with hlt | rfl | hgt
    · rw [alter_of_lt f v l hlt]
      refine List.pairwise_cons.mpr ⟨fun e' he' => ?_, hl⟩
      rcases List.mem_cons.mp he' with rfl | he'
      · exact hlt
      · exact hlt.trans (hfirst e' he')
    · rw [alter_of_eq]
      exact List.pairwise_cons.mpr ⟨hfirst, hsorted⟩
    · rw [alter_of_gt f v l hgt]
      refine List.pairwise_cons.mpr ⟨fun e' he' => ?_, ih hsorted⟩
      rcases (mem_keys_alter f l).mp (List.mem_map_of_mem he') with heq | hmem
      · exact hgt.trans_eq heq.symm
      · obtain ⟨e'', he'', heq⟩ := List.mem_map.mp hmem
        exact (hfirst e'' he'').trans_eq heq

/-- Where the keys ascend, nothing is found below the first one. -/
theorem Sorted.lookup_of_lt {l : List (κ × ν)} {j k : κ} {v : ν} (h : Sorted ((j, v) :: l))
    (hk : k < j) : ((j, v) :: l).lookup k = none := by
  obtain ⟨hfirst, -⟩ := List.pairwise_cons.mp h
  refine lookup_eq_none fun e' he' => ?_
  rcases List.mem_cons.mp he' with rfl | he'
  · exact hk.ne'
  · exact (hk.trans (hfirst e' he')).ne'

theorem Sorted.lookup_alter {l : List (κ × ν)} (hl : Sorted l) (k k' : κ) (f : Option ν → ν) :
    (SortedMap.alter k f l).lookup k' = if k' = k then some (f (l.lookup k)) else l.lookup k' := by
  induction l with
  | nil =>
    split_ifs with hk
    · subst hk
      exact List.lookup_cons_self
    · exact lookup_cons_of_ne _ _ hk
  | cons e l ih =>
    obtain ⟨j, v⟩ := e
    obtain ⟨hfirst, hsorted⟩ := List.pairwise_cons.mp hl
    rcases lt_trichotomy k j with hlt | rfl | hgt
    · rw [alter_of_lt f v l hlt, hl.lookup_of_lt hlt]
      split_ifs with hk
      · subst hk
        exact List.lookup_cons_self
      · exact lookup_cons_of_ne _ _ hk
    · rw [alter_of_eq, List.lookup_cons_self]
      split_ifs with hk
      · subst hk
        exact List.lookup_cons_self
      · rw [lookup_cons_of_ne _ _ hk, lookup_cons_of_ne _ _ hk]
    · rw [alter_of_gt f v l hgt, lookup_cons_of_ne _ _ hgt.ne']
      by_cases hk : k' = j
      · subst hk
        rw [List.lookup_cons_self, if_neg hgt.ne, List.lookup_cons_self]
      · rw [lookup_cons_of_ne _ _ hk, lookup_cons_of_ne _ _ hk, ih hsorted]

theorem Sorted.lookup_of_mem {l : List (κ × ν)} (hl : Sorted l) {k : κ} {v : ν}
    (h : (k, v) ∈ l) : l.lookup k = some v := by
  induction l with
  | nil => exact absurd h List.not_mem_nil
  | cons e l ih =>
    obtain ⟨hfirst, hsorted⟩ := List.pairwise_cons.mp hl
    rcases List.mem_cons.mp h with rfl | hmem
    · exact List.lookup_cons_self
    · rw [lookup_cons_of_ne _ _ (hfirst _ hmem).ne', ih hsorted hmem]

/-! ## Gathering by key -/

section Gather

variable {α : Type*} (key : α → κ) (init : ν) (add : ν → α → ν)

/-- The elements with the same key are added up. -/
def gather (l : List α) : List (κ × ν) :=
  l.foldl (fun groups x => alter (key x) (fun g => add (g.getD init) x) groups) []

variable {key init add}

theorem gather_concat (l : List α) (x : α) :
    gather key init add (l ++ [x]) =
      alter (key x) (fun g => add (g.getD init) x) (gather key init add l) := by
  rw [gather, List.foldl_append]
  rfl

theorem sorted_gather (l : List α) : Sorted (gather key init add l) := by
  induction l using List.reverseRecOn with
  | nil => exact List.Pairwise.nil
  | append_singleton l x ih =>
    rw [gather_concat]
    exact ih.alter _ _

theorem mem_keys_gather {l : List α} {k : κ} :
    k ∈ (gather key init add l).map Prod.fst ↔ k ∈ l.map key := by
  induction l using List.reverseRecOn with
  | nil => rfl
  | append_singleton l x ih =>
    rw [gather_concat, mem_keys_alter, ih, List.map_append, List.mem_append, List.map_singleton,
      List.mem_singleton, or_comm]

/-- A group is the sum of the elements with its key. -/
theorem lookup_gather (l : List α) (k : κ) :
    ((gather key init add l).lookup k).getD init =
      (l.filter fun x => key x = k).foldl add init := by
  induction l using List.reverseRecOn with
  | nil => rfl
  | append_singleton l x ih =>
    rw [gather_concat, (sorted_gather l).lookup_alter, List.filter_append, List.foldl_append, ← ih]
    split_ifs with hk
    · subst hk
      simp
    · simp [Ne.symm hk]

theorem sum_of_mem_gather {l : List α} {k : κ} {v : ν} (h : (k, v) ∈ gather key init add l) :
    v = (l.filter fun x => key x = k).foldl add init := by
  rw [← lookup_gather, (sorted_gather l).lookup_of_mem h, Option.getD_some]

/-- Where the additions commute the order of the elements makes no difference. -/
theorem gather_perm (hcomm : ∀ g x y, add (add g x) y = add (add g y) x) {l l' : List α}
    (h : l.Perm l') : gather key init add l = gather key init add l' :=
  h.foldl_eq' (fun _ _ _ _ groups => alter_swap (fun _ _ => hcomm _ _ _) groups) []

theorem map_alter {μ : Type*} (view : ν → μ) (k : κ) {f : Option ν → ν} {g : Option μ → μ}
    (h : ∀ v, view (f v) = g (v.map view)) (l : List (κ × ν)) :
    (alter k f l).map (Prod.map id view) = alter k g (l.map (Prod.map id view)) := by
  induction l with
  | nil => exact congrArg (fun v => [(k, v)]) (h none)
  | cons e l ih =>
    obtain ⟨j, v⟩ := e
    show (alter k f ((j, v) :: l)).map _ = alter k g ((j, view v) :: l.map (Prod.map id view))
    rcases lt_trichotomy k j with hlt | rfl | hgt
    · rw [alter_of_lt _ _ _ hlt, alter_of_lt _ _ _ hlt, ← Option.map_none view, ← h none]
      rfl
    · rw [alter_of_eq, alter_of_eq, ← Option.map_some, ← h (some v)]
      rfl
    · rw [alter_of_gt _ _ _ hgt, alter_of_gt _ _ _ hgt, ← ih]
      rfl

/-- What is seen of the groups, where it depends on what is seen of them. -/
theorem map_gather {μ : Type*} (view : ν → μ) {add' : μ → α → μ}
    (h : ∀ g x, view (add g x) = add' (view g) x) (l : List α) :
    (gather key init add l).map (Prod.map id view) = gather key (view init) add' l := by
  induction l using List.reverseRecOn with
  | nil => rfl
  | append_singleton l x ih =>
    rw [gather_concat, gather_concat, ← ih]
    refine map_alter view _ (fun v => ?_) _
    cases v <;> exact h _ _

end Gather

end SortedMap
