import PadMule.Proto.AichTree
import PadMule.Lib.BitPath

/-
  The shape of an AICH tree, as a function of the file size alone.

  `Covers n s p start size s'`: in the tree of an `n`-byte `s`-side node, the root path
  `p` leads to the node of `[start, start + size)`. `Shaped` is a tree with nodes missing
  but none out of place; the lookups and `set_hash` are followed on it path by path.
  `Complete` is the tree `from_leaves` builds.
-/

namespace PadMule.Proto.Aich

/-! ## Splits -/

/-- The left half of an inner node of `n` bytes. -/
abbrev leftSize (n : Nat) (s : Bool) : Nat := splitLeft n s (baseFor n)

theorem leftSize_pos {n : Nat} (s : Bool) (hn : baseFor n < n) : 0 < leftSize n s :=
  (splitLeft_bounds s (baseFor_pos n) hn).1

theorem leftSize_lt {n : Nat} (s : Bool) (hn : baseFor n < n) : leftSize n s < n :=
  (splitLeft_bounds s (baseFor_pos n) hn).2

theorem baseFor_dvd_leftSize (n : Nat) (s : Bool) : baseFor n ∣ leftSize n s :=
  Dvd.intro_left _ rfl

theorem baseFor_of_le {n : Nat} (h : n ≤ PARTSIZE) : baseFor n = EMBLOCKSIZE := if_pos h

theorem baseFor_of_lt {n : Nat} (h : PARTSIZE < n) : baseFor n = PARTSIZE :=
  if_neg (Nat.not_le_of_lt h)

theorem EMBLOCKSIZE_le_PARTSIZE : EMBLOCKSIZE ≤ PARTSIZE := by decide

/-- A node is a leaf exactly when it fits in one block. -/
theorem le_baseFor_iff {n : Nat} : n ≤ baseFor n ↔ n ≤ EMBLOCKSIZE := by
  have := EMBLOCKSIZE_le_PARTSIZE
  unfold baseFor
  split <;> omega

/-- Induction along the splits: leaves, then inner nodes from their halves. -/
theorem split_induction {P : Nat → Bool → Prop}
    (leaf : ∀ n s, n ≤ baseFor n → P n s)
    (inner : ∀ n s, baseFor n < n → P (leftSize n s) true → P (n - leftSize n s) false → P n s)
    (n : Nat) (s : Bool) : P n s := by
  induction n using Nat.strong_induction_on generalizing s with
  | _ n ih =>
    by_cases h : n ≤ baseFor n
    · exact leaf n s h
    · have hin : baseFor n < n := Nat.lt_of_not_le h
      have hpos := leftSize_pos s hin
      have hlt := leftSize_lt s hin
      exact inner n s hin (ih _ hlt true) (ih _ (by omega) false)

/-! ## Extents -/

/-- The root path `p` of an `n`-byte, `s`-side node leads to the node of the bytes
    `[start, start + size)`, itself on side `s'`. -/
inductive Covers : Nat → Bool → List Bool → Nat → Nat → Bool → Prop where
  | here (n : Nat) (s : Bool) : Covers n s [] 0 n s
  | left {n start size : Nat} {s s' : Bool} {p : List Bool} (hn : baseFor n < n)
      (h : Covers (leftSize n s) true p start size s') : Covers n s (true :: p) start size s'
  | right {n start size : Nat} {s s' : Bool} {p : List Bool} (hn : baseFor n < n)
      (h : Covers (n - leftSize n s) false p start size s') :
      Covers n s (false :: p) (leftSize n s + start) size s'

theorem Covers.bounds {n start size : Nat} {s s' : Bool} {p : List Bool}
    (h : Covers n s p start size s') (hn : 0 < n) : 0 < size ∧ start + size ≤ n := by
  induction h with
  | here n s => omega
  | @left n start size s s' p hin h ih =>
    have := ih (leftSize_pos s hin)
    have := leftSize_lt s hin
    omega
  | @right n start size s s' p hin h ih =>
    have hlt := leftSize_lt s hin
    have := ih (by omega)
    omega

theorem Covers.trans {n st st' len len' : Nat} {s s' s'' : Bool} {p q : List Bool}
    (h : Covers n s p st len s') (hq : Covers len s' q st' len' s'') :
    Covers n s (p ++ q) (st + st') len' s'' := by
  induction h with
  | here n s => rwa [List.nil_append, Nat.zero_add]
  | left hin h ih => exact .left hin (ih hq)
  | right hin h ih =>
    rw [Nat.add_assoc]
    exact .right hin (ih hq)

/-- Nodes at multiples of the unit `u`, cut to the end of the file, exist below every node
    that splits on such multiples. -/
theorem exists_covers {u : Nat} {S : Nat → Prop}
    (hstop : ∀ n, S n → n ≤ baseFor n → n ≤ u)
    (hdvd : ∀ n s, S n → u < n → u ∣ leftSize n s)
    (hleft : ∀ n s, S n → u < n → S (leftSize n s) ∧ S (n - leftSize n s))
    {n start : Nat} (s : Bool) (hS : S n) (hstart : u ∣ start) (hlt : start < n) :
    ∃ p s', Covers n s p start (min u (n - start)) s' := by
  induction n, s using split_induction generalizing start with
  | leaf n s hleaf =>
    have hle := hstop n hS hleaf
    have h0 : start = 0 := Nat.eq_zero_of_dvd_of_lt hstart (by omega)
    subst h0
    rw [Nat.sub_zero, Nat.min_eq_right hle]
    exact ⟨[], s, .here n s⟩
  | inner n s hin ihl ihr =>
    by_cases hle : n ≤ u
    · have h0 : start = 0 := Nat.eq_zero_of_dvd_of_lt hstart (by omega)
      subst h0
      rw [Nat.sub_zero, Nat.min_eq_right hle]
      exact ⟨[], s, .here n s⟩
    · have hun : u < n := Nat.lt_of_not_le hle
      have hd := hdvd n s hS hun
      obtain ⟨hSl, hSr⟩ := hleft n s hS hun
      have hln := leftSize_lt s hin
      by_cases hside : start < leftSize n s
      · obtain ⟨p, s', hp⟩ := ihl hSl hstart hside
        have hgap : u ≤ leftSize n s - start :=
          Nat.le_of_dvd (by omega) (Nat.dvd_sub hd hstart)
        refine ⟨true :: p, s', .left hin ?_⟩
        rwa [Nat.min_eq_left hgap, ← Nat.min_eq_left (show u ≤ n - start by omega)] at hp
      · obtain ⟨p, s', hp⟩ := ihr hSr (Nat.dvd_sub hstart hd) (by omega : start - leftSize n s < _)
        refine ⟨false :: p, s', ?_⟩
        have hc := Covers.right hin hp
        rwa [show leftSize n s + (start - leftSize n s) = start by omega,
          show n - leftSize n s - (start - leftSize n s) = n - start by omega] at hc

/-- Every part of the file is a node. -/
theorem exists_covers_part {n start : Nat} (s : Bool) (hstart : PARTSIZE ∣ start)
    (hlt : start < n) : ∃ p s', Covers n s p start (min PARTSIZE (n - start)) s' := by
  refine exists_covers (S := fun _ => True) ?_ ?_ ?_ s trivial hstart hlt
  · intro n _ hn
    have := le_baseFor_iff.mp hn
    have := EMBLOCKSIZE_le_PARTSIZE
    omega
  · intro n s _ hn
    have h := baseFor_dvd_leftSize n s
    rwa [baseFor_of_lt hn] at h
  · intro n s _ _
    exact ⟨trivial, trivial⟩

/-- Every block of a part is a node. -/
theorem exists_covers_block {n start : Nat} (s : Bool) (hn : n ≤ PARTSIZE)
    (hstart : EMBLOCKSIZE ∣ start) (hlt : start < n) :
    ∃ p s', Covers n s p start (min EMBLOCKSIZE (n - start)) s' := by
  refine exists_covers (S := fun n => n ≤ PARTSIZE) ?_ ?_ ?_ s hn hstart hlt
  · intro n _ hn
    exact le_baseFor_iff.mp hn
  · intro n s hP _
    have h := baseFor_dvd_leftSize n s
    rwa [baseFor_of_le hP] at h
  · intro n s hP hlt
    have := leftSize_lt s (show baseFor n < n by rwa [baseFor_of_le hP])
    omega

/-! ## Paths -/

namespace Node

/-- The node at the root path `p`, `absent` where there is none. -/
def sub : List Bool → Node → Node
  | [], t => t
  | _ :: _, .absent => .absent
  | true :: p, .node _ _ _ _ l _ => sub p l
  | false :: p, .node _ _ _ _ _ r => sub p r

@[simp] theorem sub_nil (t : Node) : sub [] t = t := by cases t <;> rfl

@[simp] theorem sub_absent (p : List Bool) : sub p .absent = .absent := by cases p <;> rfl

theorem sub_append (p q : List Bool) (t : Node) : sub (p ++ q) t = sub q (sub p t) := by
  induction p generalizing t with
  | nil => simp
  | cons d p ih =>
    cases t with
    | absent => simp
    | node h n s b l r => cases d <;> exact ih _

/-- The nodes `find_mut` creates: those on the path. -/
def grow : List Bool → Node → Node
  | [], t => t
  | _ :: _, .absent => .absent
  | true :: p, .node h n s b l r => .node h n s b (grow p (l.orNew (splitLeft n s b) true)) r
  | false :: p, .node h n s b l r =>
    .node h n s b l (grow p (r.orNew (n - splitLeft n s b) false))

/-- `set_hash` without overwriting, on a path of directions. -/
def setPath (x : Hash20) : List Bool → Node → Bool × Node
  | _, .absent => (false, .absent)
  | [], .node h n s b l r => (true, .node (h.or (some x)) n s b l r)
  | d :: p, .node h n s b l r =>
    if n ≤ b then (false, .node h n s b l r)
    else if d then
      ((setPath x p (l.orNew (splitLeft n s b) true)).1,
        .node h n s b (setPath x p (l.orNew (splitLeft n s b) true)).2 r)
    else
      ((setPath x p (r.orNew (n - splitLeft n s b) false)).1,
        .node h n s b l (setPath x p (r.orNew (n - splitLeft n s b) false)).2)

/-- No node out of place: every node has the extent, side and base its path gives it. -/
inductive Shaped : Nat → Bool → Node → Prop where
  | absent {n : Nat} {s : Bool} : Shaped n s .absent
  | leaf {n : Nat} {s : Bool} {h : Option Hash20} (hn : n ≤ baseFor n) :
      Shaped n s (.node h n s (baseFor n) .absent .absent)
  | inner {n : Nat} {s : Bool} {h : Option Hash20} {l r : Node} (hn : baseFor n < n)
      (hl : Shaped (leftSize n s) true l) (hr : Shaped (n - leftSize n s) false r) :
      Shaped n s (.node h n s (baseFor n) l r)

theorem shaped_new (n : Nat) (s : Bool) : Shaped n s (new n s) := by
  by_cases h : n ≤ baseFor n
  · exact .leaf h
  · exact .inner (Nat.lt_of_not_le h) .absent .absent

theorem Shaped.orNew {n : Nat} {s : Bool} {t : Node} (h : Shaped n s t) :
    Shaped n s (t.orNew n s) := by
  cases t with
  | absent => exact shaped_new n s
  | node => exact h

theorem Shaped.dataSize {n : Nat} {s : Bool} {t : Node} (h : Shaped n s t)
    (hp : t.isAbsent = false) : t.dataSize = n := by
  cases h with
  | absent => cases hp
  | leaf => rfl
  | inner => rfl

/-- Only the hash of a node may change: the shape is the same. -/
theorem Shaped.setHash {n : Nat} {s : Bool} {h : Option Hash20} {n' : Nat} {s' : Bool}
    {b : Nat} {l r : Node} (ht : Shaped n s (.node h n' s' b l r)) (h' : Option Hash20) :
    Shaped n s (.node h' n' s' b l r) := by
  cases ht with
  | leaf hn => exact .leaf hn
  | inner hn hl hr => exact .inner hn hl hr

@[simp] theorem isAbsent_orNew (n : Nat) (s : Bool) (t : Node) :
    (t.orNew n s).isAbsent = false := by
  cases t <;> rfl

@[simp] theorem isAbsent_grow (p : List Bool) (t : Node) : (grow p t).isAbsent = t.isAbsent := by
  cases t with
  | absent => cases p <;> rfl
  | node h n s b l r =>
    cases p with
    | nil => rfl
    | cons d p => cases d <;> rfl

@[simp] theorem isAbsent_setPath (x : Hash20) (p : List Bool) (t : Node) :
    (setPath x p t).2.isAbsent = t.isAbsent := by
  cases t with
  | absent => cases p <;> rfl
  | node h n s b l r =>
    cases p with
    | nil => rfl
    | cons d p =>
      unfold setPath
      split
      · rfl
      · cases d <;> rfl

theorem shaped_setPath (x : Hash20) {p : List Bool} {n : Nat} {s : Bool} {t : Node}
    (h : Shaped n s t) : Shaped n s (setPath x p t).2 := by
  induction p generalizing n s t with
  | nil =>
    cases t with
    | absent => exact h
    | node => exact h.setHash _
  | cons d p ih =>
    cases h with
    | absent => exact .absent
    | leaf hn =>
      rw [setPath, if_pos hn]
      exact .leaf hn
    | inner hn hl hr =>
      rw [setPath, if_neg (Nat.not_le_of_lt hn)]
      cases d
      · exact .inner hn hl (ih hr.orNew)
      · exact .inner hn (ih hl.orNew) hr

/-! ## Lookups follow the path -/

theorem hash_orNew (n : Nat) (s : Bool) (t : Node) (q : List Bool) :
    (sub q (t.orNew n s)).hash = (sub q t).hash := by
  cases t with
  | node => rfl
  | absent =>
    cases q with
    | nil => rfl
    | cons d q => cases d <;> simp [orNew, new, sub]

/-- Growing a path adds no hash. -/
theorem hash_sub_grow (p q : List Bool) (t : Node) : (sub q (grow p t)).hash = (sub q t).hash := by
  induction p generalizing q t with
  | nil => cases t <;> rfl
  | cons d p ih =>
    cases t with
    | absent => rfl
    | node h n s b l r =>
      cases q with
      | nil => cases d <;> rfl
      | cons e q =>
        cases d <;> cases e <;> simp [grow, sub, ih, hash_orNew]

/-- A planted hash appears at its path, where none was before; all others stay. -/
theorem hash_sub_setPath (x : Hash20) (p q : List Bool) (t : Node) :
    (sub q (setPath x p t).2).hash =
      if q = p ∧ (setPath x p t).1 then (sub q t).hash.or (some x) else (sub q t).hash := by
  induction p generalizing q t with
  | nil =>
    cases t with
    | absent => simp [setPath]
    | node h n s b l r =>
      cases q with
      | nil => simp [setPath, hash]
      | cons e q => cases e <;> simp [setPath, sub]
  | cons d p ih =>
    cases t with
    | absent => simp [setPath]
    | node h n s b l r =>
      unfold setPath
      split
      · simp
      · cases q with
        | nil => cases d <;> simp [sub, hash]
        | cons e q => cases d <;> cases e <;> simp [sub, ih, hash_orNew]

/-- `find` at the extent of a path finds the node at that path, within the level cap. -/
theorem find_eq {n start size : Nat} {s s' : Bool} {p : List Bool} {t : Node}
    (hc : Covers n s p start size s') (hn : 0 < n) (ht : Shaped n s t) (budget : Nat) :
    find budget t start size =
      if p.length < budget ∧ (sub p t).isAbsent = false then some (sub p t) else none := by
  induction hc generalizing t budget with
  | here n s =>
    cases budget with
    | zero => simp [find]
    | succ budget => cases ht <;> simp [find, isAbsent]
  | @left n start size s s' p hin h ih =>
    have hb := h.bounds (leftSize_pos s hin)
    have hlt := leftSize_lt s hin
    have heq : leftSize n s = splitLeft n s (baseFor n) := rfl
    cases budget with
    | zero => simp [find]
    | succ budget =>
      cases ht with
      | absent => simp [find, isAbsent]
      | leaf hn => omega
      | inner hn hl hr =>
        have hi := ih (leftSize_pos s hin) hl budget
        rw [find, if_neg (by omega), if_neg (by omega), if_neg (by omega), if_pos (by omega),
          if_neg (by omega), hi]
        simp [sub]
  | @right n start size s s' p hin h ih =>
    have hlt := leftSize_lt s hin
    have hb := h.bounds (by omega)
    have hpos := leftSize_pos s hin
    have heq : leftSize n s = splitLeft n s (baseFor n) := rfl
    cases budget with
    | zero => simp [find]
    | succ budget =>
      cases ht with
      | absent => simp [find, isAbsent]
      | leaf hn => omega
      | inner hn hl hr =>
        have hi := ih (by omega) hr budget
        rw [find, if_neg (by omega), if_neg (by omega), if_neg (by omega), if_neg (by omega),
          Nat.add_sub_cancel_left, hi]
        simp [sub]

theorem find_hash {n start size : Nat} {s s' : Bool} {p : List Bool} {t : Node}
    (hc : Covers n s p start size s') (hn : 0 < n) (ht : Shaped n s t) (budget : Nat) :
    (find budget t start size).bind hash = if p.length < budget then (sub p t).hash else none := by
  rw [find_eq hc hn ht]
  by_cases hlen : p.length < budget
  · cases hs : sub p t <;> simp [hlen, hash, isAbsent]
  · simp [hlen]

/-- `find_mut` at the extent of a path counts its levels and grows the path, up to the cap. -/
theorem findMut_eq {n start size : Nat} {s s' : Bool} {p : List Bool} {t : Node}
    (hc : Covers n s p start size s') (hn : 0 < n) (ht : Shaped n s t)
    (hp : t.isAbsent = false) (budget : Nat) :
    findMut budget t start size =
      (if p.length < budget then some (p.length + 1) else none, grow (p.take budget) t) := by
  induction hc generalizing t budget with
  | here n s =>
    cases budget with
    | zero => simp [findMut, grow]
    | succ budget =>
      cases ht with
      | absent => cases hp
      | leaf hn => simp [findMut, grow]
      | inner hn hl hr => simp [findMut, grow]
  | @left n start size s s' p hin h ih =>
    have hb := h.bounds (leftSize_pos s hin)
    have hlt := leftSize_lt s hin
    have heq : leftSize n s = splitLeft n s (baseFor n) := rfl
    cases budget with
    | zero => simp [findMut, grow]
    | succ budget =>
      cases ht with
      | absent => cases hp
      | leaf hn => omega
      | inner hn hl hr =>
        have hi := ih (leftSize_pos s hin) hl.orNew (isAbsent_orNew _ _ _) budget
        rw [findMut, if_neg (by omega), if_neg (by omega), if_neg (by omega), if_pos (by omega),
          if_neg (by omega), hi]
        by_cases hlen : p.length < budget <;> simp [hlen, grow]
  | @right n start size s s' p hin h ih =>
    have hlt := leftSize_lt s hin
    have hb := h.bounds (by omega)
    have hpos := leftSize_pos s hin
    have heq : leftSize n s = splitLeft n s (baseFor n) := rfl
    cases budget with
    | zero => simp [findMut, grow]
    | succ budget =>
      cases ht with
      | absent => cases hp
      | leaf hn => omega
      | inner hn hl hr =>
        have hi := ih (by omega) hr.orNew (isAbsent_orNew _ _ _) budget
        rw [findMut, if_neg (by omega), if_neg (by omega), if_neg (by omega), if_neg (by omega),
          Nat.add_sub_cancel_left, hi]
        by_cases hlen : p.length < budget <;> simp [hlen, grow]

end Node

end PadMule.Proto.Aich
