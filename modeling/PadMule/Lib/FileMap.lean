import Mathlib.Tactic

/-
  A directory as a list of entries, and the file operations on it.

  `get` is the content of a name. Each operation's effect on `get` is one equation; a
  name it does not touch keeps its content (`get_apply_of_notMem`), and the only new
  names are the ones it touches (`mem_names_apply`).
-/

namespace FileMap

variable {κ ν : Type} [DecidableEq κ]

/-- Entries of a directory; the first one for a name counts. -/
abbrev Dir (κ ν : Type) := List (κ × ν)

def get (d : Dir κ ν) (k : κ) : Option ν := d.lookup k

def names (d : Dir κ ν) : List κ := d.map Prod.fst

def remove (d : Dir κ ν) (k : κ) : Dir κ ν := d.filter fun e => e.1 ≠ k

def write (d : Dir κ ν) (k : κ) (v : ν) : Dir κ ν := (k, v) :: remove d k

/-- An existing target is replaced; without a source nothing happens. -/
def rename (d : Dir κ ν) (a b : κ) : Dir κ ν :=
  match get d a with
  | none => d
  | some v => write (remove d a) b v

inductive Op (κ ν : Type) where
  | write (k : κ) (v : ν)
  | rename (a b : κ)
  | remove (k : κ)

namespace Op

def apply : Op κ ν → Dir κ ν → Dir κ ν
  | write k v, d => FileMap.write d k v
  | rename a b, d => FileMap.rename d a b
  | remove k, d => FileMap.remove d k

/-- The names an operation may change. -/
def touched : Op κ ν → List κ
  | write k _ => [k]
  | rename a b => [a, b]
  | remove k => [k]

end Op

/-- A process that gets as far as the listed operations. -/
def run (ops : List (Op κ ν)) (d : Dir κ ν) : Dir κ ν := ops.foldl (fun d op => op.apply d) d

/-! ## Reading after an operation -/

theorem get_remove (d : Dir κ ν) (k j : κ) :
    get (remove d k) j = if j = k then none else get d j := by
  unfold get remove
  induction d with
  | nil => simp
  | cons e d ih =>
    by_cases he : e.1 = k
    · rw [List.filter_cons_of_neg (by simpa using he), ih]
      by_cases hj : j = k
      · rw [if_pos hj, if_pos hj]
      · have hje : (j == e.1) = false := beq_eq_false_iff_ne.mpr (he ▸ hj)
        rw [if_neg hj, if_neg hj, List.lookup_cons, hje]
    · rw [List.filter_cons_of_pos (by simpa using he), List.lookup_cons, List.lookup_cons, ih]
      by_cases hje : j = e.1
      · have hjk : j ≠ k := hje ▸ he
        have hbeq : (j == e.1) = true := beq_iff_eq.mpr hje
        simp only [if_neg hjk, hbeq]
      · simp only [beq_eq_false_iff_ne.mpr hje]

theorem get_write (d : Dir κ ν) (k j : κ) (v : ν) :
    get (write d k v) j = if j = k then some v else get d j := by
  have hremove := get_remove d k j
  unfold get at hremove ⊢
  rw [write, List.lookup_cons, hremove]
  by_cases hj : j = k
  · rw [if_pos hj, if_pos hj, hj, beq_self_eq_true]
  · rw [if_neg hj, if_neg hj, beq_eq_false_iff_ne.mpr hj]

theorem get_rename (d : Dir κ ν) (a b j : κ) :
    get (rename d a b) j =
      if (get d a).isSome then if j = b then get d a else if j = a then none else get d j
      else get d j := by
  unfold rename
  cases ha : get d a with
  | none => rfl
  | some v =>
    rw [Option.isSome_some, if_pos rfl]
    dsimp only
    rw [get_write, get_remove]

theorem eq_nil_of_get {d : Dir κ ν} (h : ∀ k, get d k = none) : d = [] := by
  cases d with
  | nil => rfl
  | cons e d =>
    have he := h e.1
    rw [get, List.lookup_cons_self] at he
    cases he

/-- The frame rule of one operation. -/
theorem get_apply_of_notMem {op : Op κ ν} {j : κ} (h : j ∉ op.touched) (d : Dir κ ν) :
    get (op.apply d) j = get d j := by
  cases op with
  | write k v =>
    have hj : j ≠ k := by simpa [Op.touched] using h
    rw [Op.apply, get_write, if_neg hj]
  | remove k =>
    have hj : j ≠ k := by simpa [Op.touched] using h
    rw [Op.apply, get_remove, if_neg hj]
  | rename a b =>
    obtain ⟨ha, hb⟩ : j ≠ a ∧ j ≠ b := by simpa [Op.touched] using h
    show get (rename d a b) j = _
    unfold rename
    split
    · rfl
    · rw [get_write, if_neg hb, get_remove, if_neg ha]

theorem get_run_of_notMem {ops : List (Op κ ν)} {j : κ} (h : ∀ op ∈ ops, j ∉ op.touched)
    (d : Dir κ ν) : get (run ops d) j = get d j := by
  unfold run
  induction ops generalizing d with
  | nil => rfl
  | cons op ops ih =>
    obtain ⟨hop, hops⟩ := List.forall_mem_cons.mp h
    rw [List.foldl_cons, ih hops, get_apply_of_notMem hop]

/-- Writes under different names. -/
theorem get_run_writes {ws : List (κ × ν)} (h : (ws.map Prod.fst).Nodup) (d : Dir κ ν) (j : κ) :
    get (run (ws.map fun w => .write w.1 w.2) d) j = (ws.lookup j).or (get d j) := by
  induction ws generalizing d with
  | nil => rfl
  | cons w ws ih =>
    obtain ⟨hnot, hrest⟩ := List.nodup_cons.mp h
    rw [List.map_cons, run, List.foldl_cons]
    show get (run _ (FileMap.write d w.1 w.2)) j = _
    rw [ih hrest, get_write, List.lookup_cons]
    by_cases hj : j = w.1
    · have hlookup : ws.lookup w.1 = none := List.lookup_eq_none_iff.mpr fun e he =>
        bne_iff_ne.mpr fun heq => hnot (heq ▸ List.mem_map_of_mem he)
      rw [if_pos hj, hj, hlookup, beq_self_eq_true]
      rfl
    · rw [if_neg hj, beq_eq_false_iff_ne.mpr hj]

theorem mem_names_iff {d : Dir κ ν} {k : κ} : k ∈ names d ↔ get d k ≠ none := by
  unfold names get
  constructor
  · intro hk hnone
    obtain ⟨e, he, hek⟩ := List.mem_map.mp hk
    have hne := List.lookup_eq_none_iff.mp hnone e he
    rw [hek] at hne
    exact bne_iff_ne.mp hne rfl
  · intro hget
    by_contra hk
    refine hget (List.lookup_eq_none_iff.mpr fun e he => bne_iff_ne.mpr fun hek => ?_)
    exact hk (List.mem_map.mpr ⟨e, he, hek.symm⟩)

/-- Where every name is listed once, reading is membership. -/
theorem get_eq_some_iff {d : Dir κ ν} (h : (names d).Nodup) {k : κ} {v : ν} :
    get d k = some v ↔ (k, v) ∈ d := by
  unfold get
  induction d with
  | nil => simp
  | cons e d ih =>
    obtain ⟨hnot, hrest⟩ := List.nodup_cons.mp h
    rw [List.lookup_cons, List.mem_cons]
    by_cases hk : k = e.1
    · have hnotd : (k, v) ∉ d := fun hmem => hnot (hk ▸ List.mem_map_of_mem hmem)
      subst hk
      simp only [beq_self_eq_true, Option.some.injEq, hnotd, or_false]
      exact ⟨fun hv => Prod.ext rfl hv.symm, fun he => (congrArg Prod.snd he).symm⟩
    · rw [beq_eq_false_iff_ne.mpr hk]
      refine (ih hrest).trans ⟨Or.inr, fun hor => hor.resolve_left fun he => hk ?_⟩
      exact congrArg Prod.fst he

theorem nodup_write {d : Dir κ ν} (h : (names d).Nodup) (k : κ) (v : ν) :
    (names (write d k v)).Nodup := by
  refine List.nodup_cons.mpr ⟨fun hmem => ?_, (List.filter_sublist.map _).nodup h⟩
  obtain ⟨e, he, hek⟩ := List.mem_map.mp hmem
  exact absurd hek (of_decide_eq_true (List.mem_filter.mp he).2)

theorem mem_of_get {d : Dir κ ν} {k : κ} {v : ν} (h : get d k = some v) : (k, v) ∈ d := by
  unfold get at h
  induction d with
  | nil => cases h
  | cons e d ih =>
    rw [List.lookup_cons] at h
    by_cases hk : k = e.1
    · subst hk
      rw [beq_self_eq_true] at h
      exact List.mem_cons.mpr (.inl (Prod.ext rfl (Option.some.inj h).symm))
    · rw [beq_eq_false_iff_ne.mpr hk] at h
      exact List.mem_cons_of_mem _ (ih h)

/-- A filter that keeps the entry a name is read from keeps what is read. -/
theorem get_filter {d : Dir κ ν} {p : κ × ν → Bool} {k : κ} {v : ν} (h : get d k = some v)
    (hp : p (k, v) = true) : get (d.filter p) k = some v := by
  unfold get at h ⊢
  induction d with
  | nil => cases h
  | cons e d ih =>
    rw [List.lookup_cons] at h
    by_cases hk : k = e.1
    · subst hk
      rw [beq_self_eq_true] at h
      have he : e = (e.1, v) := Prod.ext rfl (Option.some.inj h)
      rw [List.filter_cons_of_pos (by rwa [he]), List.lookup_cons, beq_self_eq_true, ← h]
    · have hbeq : (k == e.1) = false := beq_eq_false_iff_ne.mpr hk
      rw [hbeq] at h
      rw [List.filter_cons]
      split_ifs
      · rw [List.lookup_cons, hbeq]
        exact ih h
      · exact ih h

theorem get_filter_eq_none {d : Dir κ ν} {k : κ} (h : get d k = none) (p : κ × ν → Bool) :
    get (d.filter p) k = none := by
  by_contra hsome
  obtain ⟨e, he, hk⟩ := List.mem_map.mp (mem_names_iff.mpr hsome)
  exact mem_names_iff.mp (List.mem_map.mpr ⟨e, (List.mem_filter.mp he).1, hk⟩) h

/-- A name that is kept reads as before. -/
theorem get_filter_mem (d : Dir κ ν) {ks : List κ} {k : κ} (h : k ∈ ks) :
    get (d.filter fun e => e.1 ∈ ks) k = get d k := by
  cases hget : get d k with
  | none => exact get_filter_eq_none hget _
  | some v => exact get_filter hget (decide_eq_true h)

theorem length_write_le (d : Dir κ ν) (k : κ) (v : ν) : (write d k v).length ≤ d.length + 1 :=
  Nat.succ_le_succ (List.length_filter_le _ _)

theorem length_write_of_mem {d : Dir κ ν} {k : κ} (h : k ∈ names d) (v : ν) :
    (write d k v).length ≤ d.length := by
  obtain ⟨e, he, hk⟩ := List.mem_map.mp h
  exact List.length_filter_lt_length_iff_exists.mpr ⟨e, he, by simp [hk]⟩

/-- Operations create no names but the ones they touch. -/
theorem mem_names_run {ops : List (Op κ ν)} {d : Dir κ ν} {k : κ} (h : k ∈ names (run ops d)) :
    k ∈ names d ∨ ∃ op ∈ ops, k ∈ op.touched := by
  by_contra hnot
  obtain ⟨hd, hops⟩ := not_or.mp hnot
  refine mem_names_iff.mp h ?_
  rw [get_run_of_notMem fun op hop hk => hops ⟨op, hop, hk⟩]
  exact not_not.mp fun hg => hd (mem_names_iff.mpr hg)

end FileMap
