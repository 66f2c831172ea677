import PadMule.Proto.AichRecords

/-
  `recalculate` and `verify` on receiving trees.

  `Below t T`: every hash of `t` stands in `T` too. A `Full` tree below the complete tree
  recalculates to the complete tree's hash and verifies with nothing stripped.
-/

namespace PadMule.Proto.Aich

namespace Node

/-! ## Comparing hashes -/

/-- Every hash of `t` is the hash of `T` at the same path. -/
def Below (t T : Node) : Prop := ∀ q x, (t.sub q).hash = some x → (T.sub q).hash = some x

theorem Below.refl (t : Node) : Below t t := fun _ _ h => h

theorem Below.trans {t u v : Node} (h : Below t u) (h' : Below u v) : Below t v :=
  fun q x hx => h' q x (h q x hx)

theorem below_node {h : Option Hash20} {n : Nat} {s : Bool} {b : Nat} {l r : Node}
    {h' : Option Hash20} {n' : Nat} {s' : Bool} {b' : Nat} {l' r' : Node} :
    Below (.node h n s b l r) (.node h' n' s' b' l' r') ↔
      (∀ x, h = some x → h' = some x) ∧ Below l l' ∧ Below r r' := by
  constructor
  · intro hb
    exact ⟨fun x => hb [] x, fun q => hb (true :: q), fun q => hb (false :: q)⟩
  · intro ⟨hh, hl, hr⟩ q x hq
    cases q with
    | nil => exact hh x hq
    | cons d q =>
      cases d
      · exact hr q x hq
      · exact hl q x hq

theorem below_grow (p : List Bool) {t T : Node} (h : Below t T) : Below (t.grow p) T := by
  intro q x hq
  rw [hash_sub_grow] at hq
  exact h q x hq

/-- Planting never takes a hash away. -/
theorem below_setPath (x : Hash20) (p : List Bool) (t : Node) : Below t (t.setPath x p).2 := by
  intro q y hq
  rw [hash_sub_setPath, hq]
  split <;> rfl

/-- Planting the true hash of a path stays below the true tree. -/
theorem Below.setPath {x : Hash20} {p : List Bool} {t T : Node} (h : Below t T)
    (hx : (T.sub p).hash = some x) : Below (t.setPath x p).2 T := by
  intro q y hq
  rw [hash_sub_setPath] at hq
  split at hq
  · rename_i hqp
    cases ho : (t.sub q).hash with
    | none =>
      rw [ho] at hq
      rw [hqp.1, hx]
      exact hq
    | some z =>
      rw [ho] at hq
      rw [h q z ho]
      exact hq
  · exact h q y hq

theorem shaped_grow (p : List Bool) {n : Nat} {s : Bool} {t T : Node}
    {pair : Hash20 → Hash20 → Hash20} (hT : Complete pair n s T) (ht : Shaped n s t)
    (hp : (T.sub p).isAbsent = false) : Shaped n s (t.grow p) := by
  induction p generalizing n s t T with
  | nil => cases t <;> exact ht
  | cons d p ih =>
    cases hT with
    | leaf x hn => cases d <;> simp [sub, isAbsent] at hp
    | inner hn hl hr hlh hrh =>
      cases ht with
      | absent => exact .absent
      | leaf hn' => omega
      | inner _ htl htr =>
        cases d
        · exact .inner hn htl (ih hr htr.orNew hp)
        · exact .inner hn (ih hl htl.orNew hp) htr

/-! ## `recalculate` -/

section

variable {pair : Hash20 → Hash20 → Hash20}

theorem shaped_recalculate {n : Nat} {s : Bool} {t : Node} (h : Shaped n s t) (b : Bool) :
    Shaped n s (recalculate pair b t).2 := by
  induction h with
  | absent => exact .absent
  | leaf hn => exact .leaf hn
  | inner hn hl hr ihl ihr =>
    unfold recalculate
    dsimp only
    split
    · exact .inner hn hl hr
    · split
      · exact .inner hn ihl hr
      · split
        · exact .inner hn ihl ihr
        · split
          · exact .inner hn ihl ihr
          · split <;> exact .inner hn ihl ihr

theorem shaped_filled {n : Nat} {s : Bool} {t : Node} (h : Shaped n s t) :
    Shaped n s (filled pair t) := by
  unfold filled
  split
  · exact shaped_recalculate h true
  · exact h

/-- Every verdict of `verify` leaves the shape. -/
theorem shaped_verify {n : Nat} {s : Bool} {t : Node} (h : Shaped n s t) :
    Shaped n s (verify pair true t).2 := by
  induction hk : t.height using Nat.strong_induction_on generalizing n s t with
  | _ k ih =>
    cases h with
    | absent =>
      rw [verify]
      exact .absent
    | @leaf _ _ h hn =>
      cases h with
      | none =>
        rw [verify]
        exact .leaf hn
      | some x =>
        rw [verify]
        exact .leaf hn
    | @inner n s h l r hn hl hr =>
      cases h with
      | none =>
        rw [verify]
        exact .inner hn .absent .absent
      | some x =>
        have hlk : (filled pair l).height < k := by
          rw [height_filled, ← hk, height]
          omega
        have hrk : (filled pair r).height < k := by
          rw [height_filled, ← hk, height]
          omega
        have hl₁ := @shaped_filled pair _ _ _ hl
        have hr₁ := @shaped_filled pair _ _ _ hr
        rw [verify]
        dsimp only
        split
        · split
          · exact .inner hn .absent .absent
          · split
            · exact .inner hn (ih _ hlk hl₁ rfl) hr₁
            · exact .inner hn (ih _ hlk hl₁ rfl) (ih _ hrk hr₁ rfl)
        · exact .inner hn hl₁ hr₁
        · exact .inner hn .absent .absent

/-- `verify` never touches the hash of the node it starts from. -/
theorem hash_verify (t : Node) : (verify pair true t).2.hash = t.hash := by
  cases t with
  | absent => rw [verify]
  | node h n s b l r =>
    cases h with
    | none => rw [verify]; rfl
    | some x =>
      rw [verify]
      dsimp only
      split
      · split
        · rfl
        · split <;> rfl
      · rfl
      · rfl

/-! ## Full trees -/

/-- Every node is childless with a hash, or has two full children. -/
inductive Full : Node → Prop where
  | stub {x : Hash20} {n : Nat} {s : Bool} {b : Nat} :
      Full (.node (some x) n s b .absent .absent)
  | inner {h : Option Hash20} {n : Nat} {s : Bool} {b : Nat} {l r : Node} (hl : Full l)
      (hr : Full r) : Full (.node h n s b l r)

theorem Full.present {t : Node} (h : Full t) : t.isAbsent = false := by
  cases h <;> rfl

theorem Full.not_below_absent {t : Node} (h : Full t) : ¬ Below t .absent := by
  induction h with
  | @stub x n s b =>
    intro hc
    have hx := hc [] x rfl
    cases hx
  | inner _ _ ih _ =>
    intro hc
    refine ih fun q x hq => ?_
    have hx := hc (true :: q) x hq
    cases hx

/-- A full tree below the complete tree recalculates to its hash. -/
theorem Full.recalculate {n : Nat} {s : Bool} {t T : Node} (hf : Full t)
    (hT : Complete pair n s T) (hb : Below t T) :
    ∃ t', Node.recalculate pair true t = (true, t') ∧ t'.hash = T.hash ∧ Below t t' ∧
      Below t' T ∧ Full t' := by
  induction hf generalizing n s T with
  | @stub x n' s' b =>
    exact ⟨_, rfl, (hb [] x rfl).symm, Below.refl _, hb, .stub⟩
  | @inner h n' s' b l r hl hr ihl ihr =>
    cases hT with
    | leaf y hn =>
      -- the complete tree has no children here
      exact absurd (below_node.mp hb).2.1 hl.not_below_absent
    | @inner _ _ L R lh rh hn hL hR hlh hrh =>
      obtain ⟨hbh, hbl, hbr⟩ := below_node.mp hb
      obtain ⟨l', hrl, hl', hkl, hbl', hfl⟩ := ihl hL hbl
      obtain ⟨r', hrr, hr', hkr, hbr', hfr⟩ := ihr hR hbr
      rw [Node.recalculate]
      simp only [hl.present, hr.present, hrl, hrr, hl', hr', hlh, hrh]
      cases h with
      | some x =>
        refine ⟨_, rfl, (hbh x rfl).symm, ?_, ?_, .inner hfl hfr⟩
        · exact below_node.mpr ⟨fun _ h => h, hkl, hkr⟩
        · exact below_node.mpr ⟨hbh, hbl', hbr'⟩
      | none =>
        refine ⟨_, rfl, rfl, ?_, ?_, .inner hfl hfr⟩
        · exact below_node.mpr ⟨fun x h => (by cases h), hkl, hkr⟩
        · exact below_node.mpr ⟨fun _ h => h, hbl', hbr'⟩

/-- After `verify` has filled it, a full child has the complete tree's hash. -/
theorem Full.filled {n : Nat} {s : Bool} {t T : Node} (hf : Full t) (hT : Complete pair n s T)
    (hb : Below t T) :
    (Node.filled pair t).hash = T.hash ∧ Below t (Node.filled pair t) ∧
      Below (Node.filled pair t) T ∧ Full (Node.filled pair t) := by
  unfold Node.filled
  cases hh : t.hash with
  | none =>
    obtain ⟨t', hr, hrest⟩ := hf.recalculate hT hb
    simp only [Option.isNone_none, if_true, hr]
    exact hrest
  | some x =>
    have hx := hb [] x (by rw [sub_nil]; exact hh)
    rw [sub_nil] at hx
    simp only [Option.isNone_some, Bool.false_eq_true, if_false]
    exact ⟨by rw [hh, hx], Below.refl t, hb, hf⟩

/-- A full tree below the complete tree, with its hash, verifies and loses nothing. -/
theorem Full.verify {n : Nat} {s : Bool} {t T : Node} (hf : Full t) (hT : Complete pair n s T)
    (hb : Below t T) (hh : t.hash = T.hash) :
    ∃ t', Node.verify pair true t = (true, t') ∧ Below t t' := by
  induction hT generalizing t with
  | @leaf n s y hn =>
    cases hf with
    | stub =>
      rw [Node.verify]
      exact ⟨_, rfl, Below.refl _⟩
    | @inner h n' s' b l r hl hr =>
      exact absurd (below_node.mp hb).2.1 hl.not_below_absent
  | @inner n s L R lh rh hn hL hR hlh hrh ihl ihr =>
    cases hf with
    | stub =>
      cases hh
      rw [Node.verify]
      exact ⟨_, rfl, Below.refl _⟩
    | @inner h n' s' b l r hl hr =>
      cases hh
      obtain ⟨hbh, hbl, hbr⟩ := below_node.mp hb
      obtain ⟨hl₁, hkl, hbl₁, hfl⟩ := hl.filled hL hbl
      obtain ⟨hr₁, hkr, hbr₁, hfr⟩ := hr.filled hR hbr
      obtain ⟨l', hvl, hkl'⟩ := ihl hfl hbl₁ hl₁
      obtain ⟨r', hvr, hkr'⟩ := ihr hfr hbr₁ hr₁
      rw [Node.verify]
      simp only [hl₁, hr₁, hlh, hrh, hvl, hvr]
      refine ⟨.node (some (pair lh rh)) n' s' b l' r', by simp, ?_⟩
      exact below_node.mpr ⟨fun _ h => h, hkl.trans hkl', hkr.trans hkr'⟩

end

end Node

end PadMule.Proto.Aich
