import PadMule.Proto.AichRecovery

/-
  What a hostile recovery payload can achieve on a fresh receiver.

  `verify` walks down from the root while both children carry a hash. At the root and one
  level below it that walk reaches every leaf of the part, and the part is sound
  (`blocks_of_accepted`). Deeper, a payload without sibling hashes stops it at the root:
  the forged leaves are never compared, and the sweep finds them (`forgery_accepted`).
-/

namespace PadMule.Proto.Aich

open BitPath

namespace Node

variable {pair : Hash20 → Hash20 → Hash20}

/-- No other two hashes pair to an inner hash of the tree. -/
def NoSecondPreimage (pair : Hash20 → Hash20 → Hash20) : Node → Prop
  | .absent => True
  | .node _ _ _ _ l r =>
    (∀ lh rh, l.hash = some lh → r.hash = some rh →
      ∀ a b, pair a b = pair lh rh → a = lh ∧ b = rh) ∧
    NoSecondPreimage pair l ∧ NoSecondPreimage pair r

/-! ## `recalculate` leaves the leaves alone -/

/-- With both children the left one is recalculated, and the right one if that went well. -/
theorem recalculate_both (b : Bool) {h : Option Hash20} {n : Nat} {s : Bool} {base : Nat}
    {l r : Node} (hl : l.isAbsent = false) (hr : r.isAbsent = false) :
    ∃ h', (recalculate pair b (.node h n s base l r)).2 = .node h' n s base
      (recalculate pair b l).2
      (if (recalculate pair b l).1 then (recalculate pair b r).2 else r) := by
  rw [recalculate]
  simp only [hl, hr]
  cases hl' : recalculate pair b l with
  | mk okL l' =>
    cases okL with
    | false => exact ⟨h, rfl⟩
    | true =>
      cases hr' : recalculate pair b r with
      | mk okR r' =>
        cases okR with
        | false => exact ⟨h, rfl⟩
        | true =>
          simp only [Bool.or_self, Bool.false_eq_true, if_false, Bool.not_true, if_true]
          split
          · exact ⟨h, rfl⟩
          · split
            · exact ⟨_, rfl⟩
            · exact ⟨h, rfl⟩

theorem sub_left_recalculate (b : Bool) {h : Option Hash20} {n : Nat} {s : Bool} {base : Nat}
    {l r : Node} (hl : l.isAbsent = false) (hr : r.isAbsent = false) (q : List Bool) :
    sub (true :: q) (recalculate pair b (.node h n s base l r)).2 =
      sub q (recalculate pair b l).2 := by
  obtain ⟨h', heq⟩ := @recalculate_both pair b h n s base l r hl hr
  rw [heq]
  rfl

theorem sub_right_recalculate (b : Bool) {h : Option Hash20} {n : Nat} {s : Bool} {base : Nat}
    {l r : Node} (hl : l.isAbsent = false) (hr : r.isAbsent = false) (q : List Bool) :
    sub (false :: q) (recalculate pair b (.node h n s base l r)).2 =
      if (recalculate pair b l).1 then sub q (recalculate pair b r).2 else sub q r := by
  obtain ⟨h', heq⟩ := @recalculate_both pair b h n s base l r hl hr
  rw [heq]
  exact apply_ite (sub q) _ _ _

/-- Without both children nothing is recalculated. -/
theorem recalculate_half (b : Bool) {t : Node}
    (h : (t.sub [true]).isAbsent = true ∨ (t.sub [false]).isAbsent = true) :
    recalculate pair b t = (true, t) := by
  cases t with
  | absent => rfl
  | node h' n s base l r =>
    rw [recalculate, if_pos]
    rw [Bool.or_eq_true]
    simpa [sub] using h

theorem Complete.leaf_recalculate {n : Nat} {s : Bool} {t T : Node} (hT : Complete pair n s T)
    (ht : Shaped n s t) (b : Bool) {r : List Bool × Hash20} (hr : r ∈ T.leafRecords) :
    ((recalculate pair b t).2.sub r.1).hash = (t.sub r.1).hash := by
  induction hT generalizing t r with
  | leaf x hn =>
    cases ht with
    | absent => rfl
    | leaf => rfl
    | inner hn' => omega
  | @inner n s L R lh rh hn hL hR _ _ ihl ihr =>
    cases ht with
    | absent => rfl
    | leaf hn' => omega
    | @inner _ _ h l r' _ hl hr' =>
      by_cases hhalf : l.isAbsent = true ∨ r'.isAbsent = true
      · rw [recalculate_half b (by simpa [Node.sub] using hhalf)]
      · rw [not_or, Bool.not_eq_true, Bool.not_eq_true] at hhalf
        rw [leafRecords_inner hL.present, List.mem_append, List.mem_map, List.mem_map] at hr
        obtain ⟨q, hq, rfl⟩ | ⟨q, hq, rfl⟩ := hr
        · simp only [Prod.map]
          rw [sub_left_recalculate b hhalf.1 hhalf.2]
          exact ihl hl hq
        · simp only [Prod.map]
          rw [sub_right_recalculate b hhalf.1 hhalf.2]
          split
          · exact ihr hr' hq
          · rfl

theorem Complete.leaf_filled {n : Nat} {s : Bool} {t T : Node} (hT : Complete pair n s T)
    (ht : Shaped n s t) {r : List Bool × Hash20} (hr : r ∈ T.leafRecords) :
    ((filled pair t).sub r.1).hash = (t.sub r.1).hash := by
  unfold filled
  split
  · exact hT.leaf_recalculate ht true hr
  · rfl

/-- With a hash on every leaf, recalculating finds a hash for the node. -/
theorem Complete.recalculate_isSome {n : Nat} {s : Bool} {t T : Node}
    (hT : Complete pair n s T) (ht : Shaped n s t)
    (hleaves : ∀ r ∈ T.leafRecords, (t.sub r.1).hash.isSome) :
    (recalculate pair true t).1 = true ∧ (recalculate pair true t).2.hash.isSome := by
  induction hT generalizing t with
  | leaf x hn =>
    have hx := hleaves ([], x) (by simp [leafRecords])
    rw [sub_nil] at hx
    cases ht with
    | absent => cases hx
    | leaf => exact ⟨rfl, hx⟩
    | inner hn' => omega
  | @inner n s L R lh rh hn hL hR _ _ ihl ihr =>
    rw [leafRecords_inner hL.present] at hleaves
    have hl' : ∀ r ∈ L.leafRecords, (t.sub (true :: r.1)).hash.isSome := fun r hr =>
      hleaves _ (List.mem_append_left _ (List.mem_map_of_mem hr))
    have hr' : ∀ r ∈ R.leafRecords, (t.sub (false :: r.1)).hash.isSome := fun r hr =>
      hleaves _ (List.mem_append_right _ (List.mem_map_of_mem hr))
    obtain ⟨rl, hrl⟩ := List.exists_mem_of_ne_nil _ hL.leafRecords_ne_nil
    obtain ⟨rr, hrr⟩ := List.exists_mem_of_ne_nil _ hR.leafRecords_ne_nil
    cases ht with
    | absent =>
      have := hl' rl hrl
      simp [Node.sub, Node.hash] at this
    | leaf hn' => omega
    | @inner _ _ h l r _ hl hr =>
      have hpl : l.isAbsent = false := by
        cases l with
        | absent => simpa [Node.sub, Node.hash] using hl' rl hrl
        | node => rfl
      have hpr : r.isAbsent = false := by
        cases r with
        | absent => simpa [Node.sub, Node.hash] using hr' rr hrr
        | node => rfl
      obtain ⟨okl, hsl⟩ := ihl hl hl'
      obtain ⟨okr, hsr⟩ := ihr hr hr'
      obtain ⟨a, ha⟩ := Option.isSome_iff_exists.mp hsl
      obtain ⟨b, hb⟩ := Option.isSome_iff_exists.mp hsr
      rw [recalculate]
      simp only [hpl, hpr, okl, okr, ha, hb]
      cases h <;> simp [Node.hash]

theorem Complete.filled_isSome {n : Nat} {s : Bool} {t T : Node} (hT : Complete pair n s T)
    (ht : Shaped n s t) (hleaves : ∀ r ∈ T.leafRecords, (t.sub r.1).hash.isSome) :
    (filled pair t).hash.isSome := by
  unfold filled
  cases hh : t.hash with
  | none => exact (hT.recalculate_isSome ht hleaves).2
  | some x => simp [hh]

/-! ## What a passed `verify` proves -/

/-- `verify` passes below a node when its children agree with it and pass in turn, or when
    neither of them has a hash. -/
theorem verify_node_true {x : Hash20} {n : Nat} {s : Bool} {b : Nat} {l r t : Node}
    (h : verify pair true (.node (some x) n s b l r) = (true, t)) :
    (∃ lh rh l' r', (filled pair l).hash = some lh ∧ (filled pair r).hash = some rh ∧
        pair lh rh = x ∧ verify pair true (filled pair l) = (true, l') ∧
        verify pair true (filled pair r) = (true, r') ∧ t = .node (some x) n s b l' r') ∨
      (filled pair l).hash = none ∧ (filled pair r).hash = none ∧
        t = .node (some x) n s b (filled pair l) (filled pair r) := by
  rw [verify] at h
  dsimp only at h
  split at h
  · rename_i lh rh hl hr
    split at h
    · cases h
    · rename_i hpair
      cases hvl : verify pair true (filled pair l) with
      | mk okL l' =>
        rw [hvl] at h
        cases okL with
        | false => cases h
        | true =>
          cases hvr : verify pair true (filled pair r) with
          | mk okR r' =>
            rw [hvr] at h
            cases h
            exact .inl ⟨lh, rh, l', r', hl, hr, not_not.mp hpair, rfl, rfl, rfl⟩
  · rename_i hl hr
    cases h
    exact .inr ⟨hl, hr, rfl⟩
  · cases h

/-- Under a node with the true hash, a passed `verify` that left a hash on every leaf has
    checked every one of them. -/
theorem Complete.leaves_of_verify {n : Nat} {s : Bool} {t t' T : Node}
    (hT : Complete pair n s T) (hpre : NoSecondPreimage pair T) (ht : Shaped n s t)
    (hh : t.hash = T.hash) (hv : verify pair true t = (true, t'))
    (hleaves : ∀ r ∈ T.leafRecords, (t'.sub r.1).hash.isSome) :
    ∀ r ∈ T.leafRecords, (t'.sub r.1).hash = some r.2 := by
  induction hT generalizing t t' with
  | leaf x hn =>
    intro r hr
    have he : r = ([], x) := by simpa [leafRecords] using hr
    have hk := @hash_verify pair t
    rw [hv, hh] at hk
    rw [he, sub_nil]
    exact hk
  | @inner n s L R lh rh hn hL hR hlh hrh ihl ihr =>
    obtain ⟨hinj, hpl, hpr⟩ := hpre
    rw [leafRecords_inner hL.present] at hleaves ⊢
    cases ht with
    | absent => cases hh
    | leaf hn' => omega
    | @inner _ _ h l r _ hl hr =>
      cases hh
      obtain ⟨a, b, l', r', ha, hb, hab, hvl, hvr, rfl⟩ | ⟨hnl, -, rfl⟩ := verify_node_true hv
      · obtain ⟨rfl, rfl⟩ := hinj lh rh hlh hrh a b hab
        have hL' := ihl hpl (shaped_filled hl) (ha.trans hlh.symm) hvl fun r hr =>
          hleaves _ (List.mem_append_left _ (List.mem_map_of_mem hr))
        have hR' := ihr hpr (shaped_filled hr) (hb.trans hrh.symm) hvr fun r hr =>
          hleaves _ (List.mem_append_right _ (List.mem_map_of_mem hr))
        intro r hr
        rw [List.mem_append, List.mem_map, List.mem_map] at hr
        obtain ⟨q, hq, rfl⟩ | ⟨q, hq, rfl⟩ := hr
        · exact hL' q hq
        · exact hR' q hq
      · -- unhashed children cannot have all their leaves hashed
        have hall : ∀ r ∈ L.leafRecords, (l.sub r.1).hash.isSome := fun r hr => by
          rw [← hL.leaf_filled hl hr]
          exact hleaves _ (List.mem_append_left _ (List.mem_map_of_mem hr))
        have hsome := hL.filled_isSome hl hall
        rw [hnl] at hsome
        cases hsome

/-- The same for one child of such a node: if every leaf under it kept a hash, they are all
    checked. -/
theorem Complete.leaves_of_verify_child {n : Nat} {s : Bool} {t t' T : Node} (d : Bool)
    (hT : Complete pair n s T) (hpre : NoSecondPreimage pair T) (ht : Shaped n s t)
    (hn : baseFor n < n) (hh : t.hash = T.hash) (hv : verify pair true t = (true, t'))
    (hleaves : ∀ r ∈ (T.sub [d]).leafRecords, (t'.sub (d :: r.1)).hash.isSome) :
    ∀ r ∈ (T.sub [d]).leafRecords, (t'.sub (d :: r.1)).hash = some r.2 := by
  cases hT with
  | leaf _ hn' => omega
  | @inner _ _ L R lh rh _ hL hR hlh hrh =>
    obtain ⟨hinj, hpl, hpr⟩ := hpre
    cases ht with
    | absent => cases hh
    | leaf hn' => omega
    | @inner _ _ h l r _ hl hr =>
      cases hh
      obtain ⟨a, b, l', r', ha, hb, hab, hvl, hvr, rfl⟩ | ⟨hnl, hnr, rfl⟩ := verify_node_true hv
      · obtain ⟨rfl, rfl⟩ := hinj lh rh hlh hrh a b hab
        cases d with
        | true =>
          simp only [Node.sub] at hleaves ⊢
          exact hL.leaves_of_verify hpl (shaped_filled hl) (ha.trans hlh.symm) hvl hleaves
        | false =>
          simp only [Node.sub] at hleaves ⊢
          exact hR.leaves_of_verify hpr (shaped_filled hr) (hb.trans hrh.symm) hvr hleaves
      · cases d with
        | true =>
          simp only [Node.sub] at hleaves
          have hsome := hL.filled_isSome hl fun r hr => by
            rw [← hL.leaf_filled hl hr]
            exact hleaves r hr
          rw [hnl] at hsome
          cases hsome
        | false =>
          simp only [Node.sub] at hleaves
          have hsome := hR.filled_isSome hr fun r hr' => by
            rw [← hR.leaf_filled hr hr']
            exact hleaves r hr'
          rw [hnr] at hsome
          cases hsome

/-- Every path of the true tree can be planted. -/
theorem Complete.setPath_ok {n : Nat} {s : Bool} {t T : Node} (hT : Complete pair n s T)
    (ht : Shaped n s t) (hp : t.isAbsent = false) {p : List Bool}
    (hsub : (T.sub p).isAbsent = false) (x : Hash20) : (setPath x p t).1 = true := by
  induction p generalizing n s t T with
  | nil =>
    cases t with
    | absent => cases hp
    | node => rfl
  | cons d p ih =>
    cases hT with
    | leaf y hn => cases d <;> simp [Node.sub, isAbsent] at hsub
    | inner hn hL hR _ _ =>
      cases ht with
      | absent => cases hp
      | leaf hn' => omega
      | inner _ hl hr =>
        rw [setPath, if_neg (Nat.not_le_of_lt hn)]
        cases d
        · exact ih hR hr.orNew (isAbsent_orNew _ _ _) hsub
        · exact ih hL hl.orNew (isAbsent_orNew _ _ _) hsub

theorem Complete.setAll_done {n : Nat} {s : Bool} {t T : Node} (hT : Complete pair n s T)
    (ht : Shaped n s t) (hp : t.isAbsent = false) {recs : List (List Bool × Hash20)}
    (hrecs : ∀ r ∈ recs, (T.sub r.1).isAbsent = false) :
    setAll recs t = (.done, (setAll recs t).2) := by
  induction recs generalizing t with
  | nil => rfl
  | cons r recs ih =>
    obtain ⟨hr, htail⟩ := List.forall_mem_cons.mp hrecs
    rw [setAll, if_pos (hT.setPath_ok ht hp hr r.2)]
    exact ih (shaped_setPath r.2 ht) (by rw [isAbsent_setPath]; exact hp) htail

/-! ## Lone grandchildren -/

/-- Of the root's descendants two levels down only the one at `[d, e]` exists, and its parent
    has no hash: the walk of `verify` ends at the root. -/
structure Lone (d e : Bool) (t : Node) : Prop where
  sibling : t.sub [!d] = .absent
  unhashed : (t.sub [d]).hash = none
  cousin : t.sub [d, !e] = .absent

theorem sub_new (q : List Bool) (hq : q ≠ []) (n : Nat) (s : Bool) : (new n s).sub q = .absent := by
  cases q with
  | nil => exact absurd rfl hq
  | cons d q => cases d <;> simp [new, sub]

theorem sub_orNew {q : List Bool} (hq : q ≠ []) (t : Node) (n : Nat) (s : Bool) :
    (t.orNew n s).sub q = t.sub q := by
  cases t with
  | absent => rw [sub_absent]; exact sub_new q hq n s
  | node => rfl

/-- Planting behind `d` leaves the other side alone. -/
theorem sub_setPath_side (x : Hash20) (d : Bool) (p q : List Bool) (t : Node) :
    (setPath x (d :: p) t).2.sub ((!d) :: q) = t.sub ((!d) :: q) := by
  cases t with
  | absent => cases d <;> rfl
  | node h n s b l r =>
    unfold setPath
    split
    · rfl
    · cases d <;> rfl

theorem sub_grow_side (d : Bool) (p q : List Bool) (t : Node) :
    (t.grow (d :: p)).sub ((!d) :: q) = t.sub ((!d) :: q) := by
  cases t with
  | absent => rfl
  | node h n s b l r => cases d <;> rfl

theorem Lone.setPath {d e : Bool} {t : Node} (h : Lone d e t) (x : Hash20) (p : List Bool) :
    Lone d e (setPath x (d :: e :: p) t).2 := by
  refine ⟨?_, ?_, ?_⟩
  · rw [sub_setPath_side]
    exact h.sibling
  · rw [hash_sub_setPath, if_neg (by simp)]
    exact h.unhashed
  · have hc := h.cousin
    cases t with
    | absent => rfl
    | node h' n s b l r =>
      unfold Node.setPath
      split
      · exact hc
      · cases d with
        | true =>
          simp only [if_true]
          show ((Node.setPath x (e :: p) _).2).sub [!e] = .absent
          rw [sub_setPath_side, sub_orNew (by simp)]
          exact hc
        | false =>
          simp only [Bool.false_eq_true, if_false]
          show ((Node.setPath x (e :: p) _).2).sub [!e] = .absent
          rw [sub_setPath_side, sub_orNew (by simp)]
          exact hc

theorem lone_grow {d e : Bool} {p : List Bool} {t : Node} (hb : Bare t) :
    Lone d e (t.grow (d :: e :: p)) := by
  have habs : ∀ q : List Bool, q ≠ [] → t.sub q = .absent := by
    intro q hq
    cases t with
    | absent => exact sub_absent q
    | node h n s b l r =>
      obtain ⟨rfl, rfl⟩ := hb
      cases q with
      | nil => exact absurd rfl hq
      | cons c q => cases c <;> simp [sub]
  refine ⟨?_, ?_, ?_⟩
  · rw [sub_grow_side]
    exact habs _ (by simp)
  · rw [hash_sub_grow, habs _ (by simp)]
    rfl
  · cases t with
    | absent => rfl
    | node h n s b l r =>
      obtain ⟨rfl, rfl⟩ := hb
      cases d
      · show (Node.grow (e :: p) _).sub [!e] = .absent
        rw [sub_grow_side]
        exact sub_new _ (by simp) _ _
      · show (Node.grow (e :: p) _).sub [!e] = .absent
        rw [sub_grow_side]
        exact sub_new _ (by simp) _ _

/-- On a lone grandchild `verify` passes and changes nothing. -/
theorem Lone.verify {d e : Bool} {t : Node} (h : Lone d e t) {x : Hash20} (hx : t.hash = some x) :
    Node.verify pair true t = (true, t) := by
  have hfill : ∀ c : Bool, filled pair (t.sub [c]) = t.sub [c] ∧ (t.sub [c]).hash = none := by
    intro c
    by_cases hc : c = d
    · subst hc
      refine ⟨?_, h.unhashed⟩
      have hhalf : ((t.sub [c]).sub [true]).isAbsent = true ∨
          ((t.sub [c]).sub [false]).isAbsent = true := by
        have hcz := h.cousin
        rw [show [c, !e] = [c] ++ [!e] from rfl, sub_append] at hcz
        cases e
        · exact .inl (by rw [Bool.not_false] at hcz; rw [hcz]; rfl)
        · exact .inr (by rw [Bool.not_true] at hcz; rw [hcz]; rfl)
      rw [filled, h.unhashed]
      simp [recalculate_half true hhalf]
    · have hs : t.sub [c] = .absent := by
        have := h.sibling
        rwa [show (!d) = c by cases c <;> cases d <;> simp_all] at this
      rw [hs]
      exact ⟨rfl, rfl⟩
  cases t with
  | absent => cases hx
  | node h' n s b l r =>
    cases hx
    obtain ⟨hfl, hl⟩ := hfill true
    obtain ⟨hfr, hr⟩ := hfill false
    simp only [sub] at hfl hl hfr hr
    rw [Node.verify]
    simp only [hfl, hfr, hl, hr]

end Node

/-! ## Parts at the root and one level below it -/

open Node

section

variable {pair : Hash20 → Hash20 → Hash20} {n partStart : Nat} {p : List Bool} {s : Bool}
  {root T : Node}

theorem Receiver.grow {master : Hash20} (hroot : Receiver n master root)
    (hT : Complete pair n true T) (hsub : (T.sub p).isAbsent = false) :
    Receiver n master (root.grow p) := by
  refine ⟨shaped_grow p hT hroot.shaped hsub, ?_⟩
  have hg := hash_sub_grow p [] root
  rw [sub_nil, sub_nil] at hg
  rw [hg, hroot.hash]

theorem Receiver.setPath {master : Hash20} (hroot : Receiver n master root) (x : Hash20)
    {q : List Bool} (hq : q ≠ []) : Receiver n master (root.setPath x q).2 := by
  refine ⟨shaped_setPath x hroot.shaped, ?_⟩
  have hs := hash_sub_setPath x q [] root
  rw [sub_nil, sub_nil, if_neg (fun h => hq h.1.symm)] at hs
  rw [hs, hroot.hash]

theorem Receiver.verify {master : Hash20} (hroot : Receiver n master root) :
    Receiver n master (root.verify pair true).2 :=
  ⟨shaped_verify hroot.shaped, (hash_verify root).trans hroot.hash⟩

theorem Receiver.plantRecords {master : Hash20} (hroot : Receiver n master root) {w : Nat}
    (hw : w ≤ 4) (bound count : Nat) (cur : Bytes) :
    Receiver n master (root.plantRecords w bound count cur).2 :=
  plantRecords_induct (I := Receiver n master) (fun x _ _ hne hi => hi.setPath x hne) hw bound
    count hroot cur

/-- An accepted payload left a receiver that passed `verify` and the sweep. -/
theorem accepted_cases {master : Hash20} (hroot : Receiver n master root)
    (hT : Complete pair n true T) (h : PartAt n partStart p s) {payload : Bytes} {rx : AichTree}
    (hacc : (AichTree.mk root).readRecoveryData pair partStart payload = (true, rx)) :
    ∃ t, Receiver n master t ∧ Node.verify pair true t = (true, rx.root) ∧
      AichTree.sweep partStart rx = true := by
  obtain hno | ⟨-, w, bound, cur, hw, -, habs⟩ :=
    @readRecoveryData_cases pair _ _ _ _ _ _ hroot h.aligned h.inside h.covers payload
  · rw [hno] at hacc
    cases hacc
  · rw [habs] at hacc
    have hplanted := (hroot.grow hT (h.complete hT).present).plantRecords hw bound
      (recordCount p (min PARTSIZE (n - partStart))) cur
    generalize (root.grow p).plantRecords w bound _ cur = result at hacc hplanted
    obtain ⟨verdict, t⟩ := result
    cases verdict with
    | cut => cases hacc
    | refused => cases hacc
    | done =>
      simp only [AichTree.absorb, AichTree.verifyPart] at hacc
      cases hv : Node.verify pair true t with
      | mk ok v =>
        rw [hv] at hacc
        cases ok with
        | false => cases hacc
        | true =>
          simp only [Bool.not_true, Bool.false_eq_true, if_false, Prod.mk.injEq] at hacc
          obtain ⟨hsw, rfl⟩ := hacc
          exact ⟨t, hplanted, hv, hsw⟩

/-- A part at most one level below the root: whatever is accepted has the true blocks. -/
theorem blocks_of_accepted {master : Hash20} (hroot : Receiver n master root)
    (hT : Complete pair n true T) (hM : T.hash = some master) (hpre : NoSecondPreimage pair T)
    (h : PartAt n partStart p s) (hshallow : p.length ≤ 1) {payload : Bytes} {rx : AichTree}
    (hacc : (AichTree.mk root).readRecoveryData pair partStart payload = (true, rx)) :
    rx.partBlockHashes partStart = (AichTree.mk T).partBlockHashes partStart := by
  obtain ⟨t, ht, hv, hsw⟩ := accepted_cases hroot hT h hacc
  have hrx : Receiver n master rx.root := by
    have := @Receiver.verify pair _ _ _ ht
    rwa [hv] at this
  have hleaves := (sweep_iff hrx h hT).mp hsw
  refine partBlockHashes_congr hrx h hT hM ?_
  have hh : t.hash = T.hash := ht.hash.trans hM.symm
  match p, hshallow with
  | [], _ =>
    simp only [sub_nil] at hleaves ⊢
    exact hT.leaves_of_verify hpre ht.shaped hh hv fun r hr => (hleaves r hr).2
  | [d], _ =>
    have hin : baseFor n < n := by
      by_contra hle
      have hp := (h.complete hT).present
      cases hT with
      | leaf => cases d <;> simp [Node.sub, isAbsent] at hp
      | inner hn' => exact hle hn'
    exact hT.leaves_of_verify_child d hpre ht.shaped hin hh hv fun r hr => (hleaves r hr).2

/-- No payload is accepted for a part with a block beyond the level cap. -/
theorem not_accepted_of_deep {master : Hash20} (hroot : Receiver n master root)
    (hT : Complete pair n true T) (h : PartAt n partStart p s)
    (hdeep : ∃ r ∈ (T.sub p).leafRecords, MAX_LEVEL ≤ (p ++ r.1).length) (payload : Bytes) :
    ((AichTree.mk root).readRecoveryData pair partStart payload).1 = false := by
  by_contra hne
  rw [Bool.not_eq_false] at hne
  obtain ⟨t, ht, hv, hsw⟩ := accepted_cases hroot hT h
    (show (AichTree.mk root).readRecoveryData pair partStart payload = (true, _) from
      Prod.ext hne rfl)
  have hrx := @Receiver.verify pair _ _ _ ht
  rw [hv] at hrx
  obtain ⟨r, hr, hlen⟩ := hdeep
  exact absurd ((sweep_iff hrx h hT).mp hsw r hr).1 (Nat.not_lt_of_le hlen)

/-! ## Deeper parts -/

/-- Every leaf of the part with the hash `f`, and copies of the first to make up the count. -/
def forgedRecords (T : Node) (p : List Bool) (f : Hash20) : List (List Bool × Hash20) :=
  (T.sub p).leafRecords.map (fun r => (p ++ r.1, f)) ++
    List.replicate p.length (p ++ ((T.sub p).leafRecords.headD ([], f)).1, f)

theorem mem_forgedRecords {f : Hash20} (hne : (T.sub p).leafRecords ≠ []) {r : List Bool × Hash20}
    (hr : r ∈ forgedRecords T p f) : ∃ q ∈ (T.sub p).leafRecords, r = (p ++ q.1, f) := by
  rw [forgedRecords, List.mem_append, List.mem_map, List.mem_replicate] at hr
  obtain ⟨q, hq, rfl⟩ | ⟨-, rfl⟩ := hr
  · exact ⟨q, hq, rfl⟩
  · cases hl : (T.sub p).leafRecords with
    | nil => exact absurd hl hne
    | cons q qs => exact ⟨q, List.mem_cons_self .., rfl⟩

theorem length_leafRecords (h : PartAt n partStart p s) (hT : Complete pair n true T) :
    (T.sub p).leafRecords.length = ceilDiv (min PARTSIZE (n - partStart)) EMBLOCKSIZE := by
  rw [← leafCount_of_le (Nat.min_le_left _ _), ← (h.complete hT).length_leafHashes h.size_pos]
  simp [leafHashes]

theorem recordCount_lt (h : p.length < MAX_LEVEL) :
    recordCount p (min PARTSIZE (n - partStart)) < 2 ^ 16 := by
  have hle := ceilDiv_le (m := 53) (b := EMBLOCKSIZE)
    ((Nat.min_le_left PARTSIZE (n - partStart)).trans (by decide))
  have : MAX_LEVEL = 22 := rfl
  rw [recordCount]
  omega

/-- The payload that carries only forged leaves of the part. -/
def forgedPayload (T : Node) (p : List Bool) (f : Hash20) : Bytes :=
  payloadOf true (forgedRecords T p f)

/-- Two or more levels below the root, forged leaves without any sibling are accepted. -/
theorem forgery_accepted {master : Hash20} (hroot : Receiver n master root) (hbare : Bare root)
    (hT : Complete pair n true T) (h : PartAt n partStart p s) (hdeep : 2 ≤ p.length)
    (hreach : ∀ r ∈ (T.sub p).leafRecords, (p ++ r.1).length < MAX_LEVEL) (f : Hash20) :
    ∃ rx, (AichTree.mk root).readRecoveryData pair partStart (forgedPayload T p f) = (true, rx) ∧
      Receiver n master rx.root ∧
      ∀ r ∈ (T.sub p).leafRecords, (rx.root.sub (p ++ r.1)).hash = some f := by
  have hP := h.complete hT
  have hne := hP.leafRecords_ne_nil
  obtain ⟨r₀, hr₀⟩ := List.exists_mem_of_ne_nil _ hne
  have hlevel : p.length < MAX_LEVEL := by
    have := hreach r₀ hr₀
    rw [List.length_append] at this
    omega
  obtain ⟨d, e, p', rfl⟩ : ∃ d e p', p = d :: e :: p' := by
    rcases p with _ | ⟨d, _ | ⟨e, p'⟩⟩
    · simp at hdeep
    · simp at hdeep
    · exact ⟨d, e, p', rfl⟩
  have hcount : (forgedRecords T (d :: e :: p') f).length =
      recordCount (d :: e :: p') (min PARTSIZE (n - partStart)) := by
    rw [forgedRecords, List.length_append, List.length_map, List.length_replicate, recordCount,
      length_leafRecords h hT, Nat.add_comm]
  have hrecne : forgedRecords T (d :: e :: p') f ≠ [] := by
    simp [forgedRecords, hne]
  have hencodable : Encodable (identWidth true) (identBound true)
      (forgedRecords T (d :: e :: p') f) := by
    intro r hr
    obtain ⟨q, hq, rfl⟩ := mem_forgedRecords hne hr
    have hlen := hreach q hq
    have hlt : ofPath (d :: e :: p' ++ q.1) < 2 ^ 22 :=
      ofPath_lt_of_le (Nat.lt_succ_iff.mp hlen)
    have : MAX_LEVEL = 22 := rfl
    refine ⟨by simp, by show (d :: e :: p' ++ q.1).length ≤ 31; omega, ?_, ?_⟩
    · show ofPath (d :: e :: p' ++ q.1) ≤ 0x400000
      omega
    · show ofPath (d :: e :: p' ++ q.1) < 256 ^ 4
      omega
  have hgrown := hroot.grow hT hP.present
  have hdone := hT.setAll_done hgrown.shaped (by rw [isAbsent_grow]; exact hroot.present)
    (show ∀ r ∈ forgedRecords T (d :: e :: p') f, _ by
      intro r hr
      obtain ⟨q, hq, rfl⟩ := mem_forgedRecords hne hr
      have hh := (hP.hash_of_mem hq).1
      rw [sub_append]
      cases hs : (T.sub (d :: e :: p')).sub q.1 with
      | absent => rw [hs] at hh; cases hh
      | node => rfl)
  -- the walk of `verify` stays at the root, and every hash below it is the forged one
  have hkept := @setAll_induct
    (fun t => Receiver n master t ∧ Lone d e t ∧
      ∀ q x, q ≠ [] → (t.sub q).hash = some x → x = f) (forgedRecords T (d :: e :: p') f)
    (by
      rintro r hr t ⟨hrt, hlone, hall⟩
      obtain ⟨q, hq, rfl⟩ := mem_forgedRecords hne hr
      refine ⟨hrt.setPath f (by simp), hlone.setPath f _, ?_⟩
      intro q' x hq' hx
      rw [hash_sub_setPath] at hx
      split at hx
      · cases ho : (t.sub q').hash with
        | none =>
          rw [ho] at hx
          cases hx
          rfl
        | some y =>
          rw [ho] at hx
          cases hx
          exact hall q' _ hq' ho
      · exact hall q' x hq' hx)
    (root.grow (d :: e :: p'))
    (by
      refine ⟨hgrown, lone_grow hbare, ?_⟩
      intro q x hq hx
      rw [hash_sub_grow] at hx
      cases root with
      | absent => simp [Node.hash] at hx
      | node h' n' s' b l r =>
        obtain ⟨rfl, rfl⟩ := hbare
        cases q with
        | nil => exact absurd rfl hq
        | cons c q => cases c <;> simp [Node.sub, Node.hash] at hx)
  generalize ht : (setAll (forgedRecords T (d :: e :: p') f) (root.grow (d :: e :: p'))).2 = t
    at hdone hkept
  obtain ⟨hrt, hlone, hall⟩ := hkept
  have hleaves : ∀ r ∈ (T.sub (d :: e :: p')).leafRecords,
      (t.sub (d :: e :: p' ++ r.1)).hash = some f := by
    intro r hr
    have hmem : (d :: e :: p' ++ r.1, f) ∈ forgedRecords T (d :: e :: p') f :=
      List.mem_append_left _ (List.mem_map.mpr ⟨r, hr, rfl⟩)
    obtain ⟨x, hx⟩ := hash_of_setAll hdone hmem
    rw [hall _ x (by simp) hx] at hx
    exact hx
  have hsweep : AichTree.sweep partStart ⟨t⟩ = true :=
    (sweep_iff hrt h hT).mpr fun r hr => ⟨hreach r hr, by rw [hleaves r hr]; rfl⟩
  have hread := @readRecoveryData_payload pair _ _ _ _ _ _ hroot h.aligned h.inside h.covers hlevel
    true _ hcount hrecne (by rw [hcount]; exact recordCount_lt hlevel) hencodable
  refine ⟨⟨t⟩, ?_, hrt, hleaves⟩
  rw [forgedPayload, hread, hdone]
  simp only [AichTree.absorb, AichTree.verifyPart, hlone.verify hrt.hash, hsweep]
  simp

/-- An accepted forgery is reported as the blocks of the part. -/
theorem forgery_reported {master : Hash20} (hroot : Receiver n master root)
    (hT : Complete pair n true T) (hM : T.hash = some master) (h : PartAt n partStart p s)
    (hreach : ∀ r ∈ (T.sub p).leafRecords, (p ++ r.1).length < MAX_LEVEL) {f : Hash20}
    (hf : ∃ r ∈ (T.sub p).leafRecords, r.2 ≠ f)
    (hforged : ∀ r ∈ (T.sub p).leafRecords, (root.sub (p ++ r.1)).hash = some f) :
    (AichTree.mk root).partBlockHashes partStart ≠ (AichTree.mk T).partBlockHashes partStart := by
  intro heq
  obtain ⟨bs, hbs⟩ := partBlockHashes_complete h hT hM hreach
  have hTr := receiver_of_complete hT hM
  rw [hbs] at heq
  rw [partBlockHashes_eq hroot h] at heq
  rw [partBlockHashes_eq hTr h] at hbs
  obtain ⟨r, hr, hne⟩ := hf
  obtain ⟨pos, hpos, s', hc⟩ := exists_block_of_leaf h hT hr
  have hentry := (eq_of_mapM_eq heq hbs pos hpos).1
  unfold blockHash at hentry
  have htrue : (T.sub (p ++ r.1)).hash = some r.2 := by
    rw [sub_append]
    exact ((h.complete hT).hash_of_mem hr).1
  rw [findBlock_hash hroot h hc, findBlock_hash hTr h hc, if_pos (hreach r hr),
    if_pos (hreach r hr), hforged r hr, htrue, Option.map_some, Option.map_some] at hentry
  have hpairs := congrArg (Option.map fun e : Nat × Nat × Hash20 => e.2.2) hentry
  exact hne (Option.some.inj hpairs).symm

/-- Some hash is not `x`. -/
theorem exists_ne_hash (x : Hash20) : ∃ f : Hash20, x ≠ f := by
  by_cases h : x = Digest.fill 20 0
  · exact ⟨Digest.fill 20 1, by rw [h]; decide⟩
  · exact ⟨Digest.fill 20 0, h⟩

/-! ## Which parts are shallow -/

theorem Covers.size_lt {n start size : Nat} {s s' : Bool} {p : List Bool}
    (h : Covers n s p start size s') (hp : p ≠ []) : size < n := by
  cases h with
  | here => exact absurd rfl hp
  | left hin hl =>
    have := hl.bounds (leftSize_pos s hin)
    have := leftSize_lt s hin
    omega
  | right hin hr =>
    have := leftSize_lt s hin
    have := leftSize_pos s hin
    have := hr.bounds (by omega)
    omega

/-- The left half of a root over several parts, in parts. -/
theorem leftSize_root {n : Nat} (hn : PARTSIZE < n) :
    leftSize n true = (n / 9728000 + (if n % 9728000 = 0 then 0 else 1) + 1) / 2 * 9728000 := by
  rw [leftSize, baseFor_of_lt hn]
  rfl

/-- A part lies at most one level below the root exactly in files of at most two parts, or
    as the last of three. -/
theorem PartAt.shallow_iff (h : PartAt n partStart p s) :
    p.length ≤ 1 ↔ n ≤ 2 * PARTSIZE ∨ n ≤ 3 * PARTSIZE ∧ partStart = 2 * PARTSIZE := by
  have hP : PARTSIZE = 9728000 := rfl
  have hcov := h.covers
  have hin := h.inside
  obtain ⟨c, hc⟩ := h.aligned
  rw [hP] at hc
  generalize hz : min PARTSIZE (n - partStart) = size at hcov
  cases hcov with
  | here =>
    simp only [List.length_nil]
    omega
  | @left _ _ _ _ _ p hbase hl =>
    have hlt := leftSize_lt true hbase
    have hb := hl.bounds (leftSize_pos true hbase)
    -- a file of one part is its own part
    have hnP : PARTSIZE < n := by omega
    have hs := leftSize_root hnP
    cases p with
    | nil =>
      cases hl
      simp only [List.length_cons, List.length_nil]
      split at hs <;> omega
    | cons d p =>
      have hsz := hl.size_lt (by simp)
      simp only [List.length_cons]
      split at hs <;> omega
  | @right _ start _ _ _ p hbase hr =>
    have hlt := leftSize_lt true hbase
    have hpos := leftSize_pos true hbase
    have hb := hr.bounds (by omega)
    have hnP : PARTSIZE < n := by omega
    have hs := leftSize_root hnP
    cases p with
    | nil =>
      cases hr
      simp only [List.length_cons, List.length_nil]
      split at hs <;> omega
    | cons d p =>
      have hsz := hr.size_lt (by simp)
      simp only [List.length_cons]
      split at hs <;> omega

/-- The lookup of a block in the complete tree fails exactly beyond the level cap. -/
theorem findBlock_none_iff (h : PartAt n partStart p s) (hT : Complete pair n true T) :
    (∃ pos ∈ blockStarts ((AichTree.mk T).partSize partStart) 0,
        (AichTree.mk T).findBlock partStart pos = none) ↔
      ∃ r ∈ (T.sub p).leafRecords, MAX_LEVEL ≤ (p ++ r.1).length := by
  obtain ⟨x, hx⟩ := hT.exists_hash
  have hTr := receiver_of_complete hT hx
  have hlookup : ∀ {q : List Bool} {pos : Nat} {s' : Bool} {y : Hash20},
      (q, y) ∈ (T.sub p).leafRecords →
      Covers (min PARTSIZE (n - partStart)) s q pos
        (min EMBLOCKSIZE (min PARTSIZE (n - partStart) - pos)) s' →
      ((AichTree.mk T).findBlock partStart pos = none ↔ MAX_LEVEL ≤ (p ++ q).length) := by
    intro q pos s' y hq hc
    have hn := h.inside
    have hsub : (T.sub (p ++ q)).isAbsent = false := (hT.sub (h.covers.trans hc)).present
    unfold AichTree.findBlock
    rw [hTr.partSize, find_eq (h.covers.trans hc) (by omega) hT.shaped, hsub]
    simp
  rw [hTr.partSize]
  constructor
  · intro ⟨pos, hpos, hnone⟩
    obtain ⟨q, y, s', hq, -, hc⟩ := exists_leaf_of_block h hT hpos
    exact ⟨(q, y), hq, (hlookup hq hc).mp hnone⟩
  · intro ⟨r, hr, hlen⟩
    obtain ⟨pos, hpos, s', hc⟩ := exists_block_of_leaf h hT hr
    exact ⟨pos, hpos, (hlookup hr hc).mpr hlen⟩

end

/-! ## A pair hash without second preimages on a tree of any size -/

/-- A digest of no single repeated byte. -/
def unevenHash : Hash20 := ⟨1 :: List.replicate 19 0, rfl⟩

/-- Pairs two equal repeated bytes to the byte before, and nothing else to a repeated byte. -/
def countdownPair (a b : Hash20) : Hash20 :=
  if a = b ∧ a = Digest.fill 20 (a.bytes.headD 0) then Digest.fill 20 (a.bytes.headD 0 - 1)
  else unevenHash

/-- The tree of an `n`-byte node at depth `d`, every hash the depth of its node repeated. -/
def depthTree (d : UInt8) (n : Nat) (s : Bool) : Node :=
  if _h : n ≤ baseFor n then .node (some (Digest.fill 20 d)) n s (baseFor n) .absent .absent
  else .node (some (Digest.fill 20 d)) n s (baseFor n) (depthTree (d + 1) (leftSize n s) true)
    (depthTree (d + 1) (n - leftSize n s) false)
termination_by n
decreasing_by
  all_goals
    have hpos := leftSize_pos s (Nat.lt_of_not_le _h)
    have hlt := leftSize_lt s (Nat.lt_of_not_le _h)
    omega

theorem fill_inj {a b : UInt8} (h : Digest.fill 20 a = Digest.fill 20 b) : a = b := by
  have hb := congrArg (fun d : Hash20 => d.bytes.headD 0) h
  exact hb

theorem countdownPair_fill (d : UInt8) :
    countdownPair (Digest.fill 20 (d + 1)) (Digest.fill 20 (d + 1)) = Digest.fill 20 d := by
  have hhead : (Digest.fill 20 (d + 1)).bytes.headD 0 = d + 1 := rfl
  rw [countdownPair, hhead, if_pos ⟨rfl, rfl⟩, UInt8.add_sub_cancel]

theorem unevenHash_ne_fill (d : UInt8) : unevenHash ≠ Digest.fill 20 d := by
  intro h
  have h0 : (1 : UInt8) = d := congrArg (fun x : Hash20 => x.bytes.headD 0) h
  have h1 : (0 : UInt8) = d := congrArg (fun x : Hash20 => x.bytes.getLastD 0) h
  rw [← h0] at h1
  exact absurd h1 (by decide)

theorem eq_of_countdownPair {a b : Hash20} {d : UInt8}
    (h : countdownPair a b = Digest.fill 20 d) :
    a = Digest.fill 20 (d + 1) ∧ b = Digest.fill 20 (d + 1) := by
  unfold countdownPair at h
  split at h
  · rename_i hab
    have hd : a.bytes.headD 0 = d + 1 := by rw [← fill_inj h, UInt8.sub_add_cancel]
    rw [hd] at hab
    exact ⟨hab.2, hab.1 ▸ hab.2⟩
  · exact absurd h (unevenHash_ne_fill d)

theorem hash_depthTree (d : UInt8) (n : Nat) (s : Bool) :
    (depthTree d n s).hash = some (Digest.fill 20 d) := by
  rw [depthTree]
  split <;> rfl

theorem complete_depthTree (d : UInt8) (n : Nat) (s : Bool) :
    Complete countdownPair n s (depthTree d n s) := by
  induction n, s using split_induction generalizing d with
  | leaf n s hn =>
    rw [depthTree, dif_pos hn]
    exact .leaf _ hn
  | inner n s hn ihl ihr =>
    rw [depthTree, dif_neg (Nat.not_le_of_lt hn)]
    have hc := Complete.inner hn (ihl (d + 1)) (ihr (d + 1)) (hash_depthTree _ _ _)
      (hash_depthTree _ _ _)
    rwa [countdownPair_fill] at hc

theorem noSecondPreimage_depthTree (d : UInt8) (n : Nat) (s : Bool) :
    NoSecondPreimage countdownPair (depthTree d n s) := by
  induction n, s using split_induction generalizing d with
  | leaf n s hn =>
    rw [depthTree, dif_pos hn]
    exact ⟨fun lh rh hl => (nomatch hl), trivial, trivial⟩
  | inner n s hn ihl ihr =>
    rw [depthTree, dif_neg (Nat.not_le_of_lt hn)]
    refine ⟨?_, ihl (d + 1), ihr (d + 1)⟩
    intro lh rh hl hr a b hab
    rw [hash_depthTree] at hl hr
    cases hl
    cases hr
    rw [countdownPair_fill] at hab
    exact eq_of_countdownPair hab

theorem hash_sub_depthTree {d : UInt8} {n : Nat} {s : Bool} {q : List Bool} {x : Hash20}
    (h : ((depthTree d n s).sub q).hash = some x) : ∃ e, x = Digest.fill 20 e := by
  induction n, s using split_induction generalizing d q with
  | leaf n s hn =>
    rw [depthTree, dif_pos hn] at h
    cases q with
    | nil =>
      cases h
      exact ⟨d, rfl⟩
    | cons c q => cases c <;> simp [Node.sub, Node.hash] at h
  | inner n s hn ihl ihr =>
    rw [depthTree, dif_neg (Nat.not_le_of_lt hn)] at h
    cases q with
    | nil =>
      cases h
      exact ⟨d, rfl⟩
    | cons c q =>
      cases c
      · exact ihr h
      · exact ihl h

theorem fromLeaves_depthTree {n : Nat} (hn : 0 < n) :
    AichTree.fromLeaves countdownPair n (depthTree 0 n true).leafHashes =
      some ⟨depthTree 0 n true⟩ :=
  fromLeaves_leafHashes hn (complete_depthTree 0 n true)

/-! ## Soundness -/

/-- Soundness holds for a part exactly when no payload can be accepted for it, a block lying
    beyond the level cap, or when it is at most one level below the root: in files of at
    most two parts, and for the last of three. -/
theorem recovery_sound_iff (pair : Hash20 → Hash20 → Hash20) {n partStart : Nat}
    {leaves : List Hash20} {T : AichTree} {master : Hash20}
    (hT : AichTree.fromLeaves pair n leaves = some T) (hM : T.masterHash = some master)
    (hpre : NoSecondPreimage pair T.root) (hpart : PARTSIZE ∣ partStart) (hlt : partStart < n) :
    (∀ rx payload rx', AichTree.withMaster n master = some rx →
        rx.readRecoveryData pair partStart payload = (true, rx') →
        rx'.partBlockHashes partStart = T.partBlockHashes partStart) ↔
      n ≤ 2 * PARTSIZE ∨ (n ≤ 3 * PARTSIZE ∧ partStart = 2 * PARTSIZE) ∨
        ∃ pos ∈ blockStarts (T.partSize partStart) 0, T.findBlock partStart pos = none := by
  obtain ⟨hpos, hc, -⟩ := complete_of_fromLeaves hT
  obtain ⟨p, s, h⟩ := exists_partAt hpart hlt
  obtain ⟨root, hroot, hr, hbare⟩ := receiver_withMaster hpos master
  obtain ⟨T⟩ := T
  rw [← or_assoc, ← h.shallow_iff, findBlock_none_iff h hc]
  constructor
  · intro hsound
    by_contra hno
    rw [not_or, not_exists] at hno
    have hreach : ∀ r ∈ (T.sub p).leafRecords, (p ++ r.1).length < MAX_LEVEL := fun r hr' =>
      Nat.lt_of_not_le fun hle => hno.2 r ⟨hr', hle⟩
    obtain ⟨r₀, hr₀⟩ := List.exists_mem_of_ne_nil _ (h.complete hc).leafRecords_ne_nil
    obtain ⟨f, hf⟩ := exists_ne_hash r₀.2
    obtain ⟨rx, hacc, hrx, hforged⟩ := @forgery_accepted pair _ _ _ _ _ _ _ hr hbare hc h (by omega)
      hreach f
    exact forgery_reported hrx hc hM h hreach ⟨r₀, hr₀, hf⟩ hforged (hsound _ _ _ hroot hacc)
  · intro hcond rx payload rx' hrx hacc
    rw [hroot] at hrx
    cases hrx
    obtain hshallow | hdeep := hcond
    · exact blocks_of_accepted hr hc hM hpre h hshallow hacc
    · have hno := @not_accepted_of_deep pair _ _ _ _ _ _ _ hr hc h hdeep payload
      rw [hacc] at hno
      cases hno

/-- The second part of two is sound. -/
theorem second_of_two_sound :
    ¬ ∃ rx payload rx', AichTree.withMaster (2 * PARTSIZE) (Digest.fill 20 0) = some rx ∧
      rx.readRecoveryData countdownPair PARTSIZE payload = (true, rx') ∧
      rx'.partBlockHashes PARTSIZE ≠
        (AichTree.mk (depthTree 0 (2 * PARTSIZE) true)).partBlockHashes PARTSIZE := by
  intro ⟨rx, payload, rx', hrx, hacc, hne⟩
  exact hne ((recovery_sound_iff countdownPair (fromLeaves_depthTree (by decide))
    (hash_depthTree 0 _ true) (noSecondPreimage_depthTree 0 _ true) (Nat.dvd_refl _)
    (by decide)).mpr (.inl (Nat.le_refl _)) rx payload rx' hrx hacc)

/-- The first of three parts: the forged payload is accepted, and reported as its blocks. -/
theorem forged_blocks_accepted :
    ∃ p rx rx', NoSecondPreimage countdownPair (depthTree 0 (3 * PARTSIZE) true) ∧
      AichTree.fromLeaves countdownPair (3 * PARTSIZE)
        (depthTree 0 (3 * PARTSIZE) true).leafHashes = some ⟨depthTree 0 (3 * PARTSIZE) true⟩ ∧
      AichTree.withMaster (3 * PARTSIZE) (Digest.fill 20 0) = some rx ∧
      rx.readRecoveryData countdownPair 0
        (forgedPayload (depthTree 0 (3 * PARTSIZE) true) p unevenHash) = (true, rx') ∧
      rx'.partBlockHashes 0 ≠
        (AichTree.mk (depthTree 0 (3 * PARTSIZE) true)).partBlockHashes 0 := by
  have hc := complete_depthTree 0 (3 * PARTSIZE) true
  have hM := hash_depthTree 0 (3 * PARTSIZE) true
  obtain ⟨p, s, h⟩ := @exists_partAt (3 * PARTSIZE) 0 (Nat.dvd_zero _) (by decide)
  obtain ⟨root, hroot, hr, hbare⟩ := receiver_withMaster (n := 3 * PARTSIZE) (by decide)
    (Digest.fill 20 0)
  have hdeep : 2 ≤ p.length := by
    by_contra hle
    have hs := h.shallow_iff.mp (by omega)
    revert hs
    decide
  have hheight : (depthTree 0 (3 * PARTSIZE) true).height ≤ 9 := hc.height_le (k := 2) (by decide)
  have hreach : ∀ r ∈ ((depthTree 0 (3 * PARTSIZE) true).sub p).leafRecords,
      (p ++ r.1).length < MAX_LEVEL := fun r hr' =>
    ((hc.hash_of_mem_recovery h.covers (hc.mem_recovery_of_leaf h.covers hr')).2.1.trans_le
      hheight).trans_le (by decide)
  obtain ⟨rx, hacc, hrx, hforged⟩ := @forgery_accepted countdownPair _ _ _ _ _ _ _ hr hbare hc h hdeep
    hreach unevenHash
  obtain ⟨r₀, hr₀⟩ := List.exists_mem_of_ne_nil _ (h.complete hc).leafRecords_ne_nil
  refine ⟨p, ⟨root⟩, rx, noSecondPreimage_depthTree _ _ _, fromLeaves_depthTree (by decide), hroot,
    hacc, forgery_reported hrx hc hM h hreach ⟨r₀, hr₀, ?_⟩ hforged⟩
  obtain ⟨e, he⟩ := hash_sub_depthTree (q := p ++ r₀.1) (x := r₀.2) (by
    rw [sub_append]
    exact ((h.complete hc).hash_of_mem hr₀).1)
  rw [he]
  exact (unevenHash_ne_fill e).symm

end PadMule.Proto.Aich
