import PadMule.Proto.AichForgery

/-
  What rejected recovery payloads leave behind in the receiving tree.

  `verify` strips bad subtrees under nodes it reaches, so a file of at most two blocks is
  clean after every rejection (`Calm`). In a larger file one forged hash two levels below
  the root is out of its reach and stays (`residue_rejected`).
-/

namespace PadMule.Proto.Aich

open BitPath Node

section

variable {pair : Hash20 → Hash20 → Hash20} {n partStart : Nat} {p : List Bool} {s : Bool}
  {root T : Node} {master : Hash20}

/-- Rejected payloads one after the other on one tree; `none` if one was accepted. -/
def rejectAll (pair : Hash20 → Hash20 → Hash20) :
    List (Nat × Bytes) → AichTree → Option AichTree
  | [], rx => some rx
  | (partStart, payload) :: rest, rx =>
    match rx.readRecoveryData pair partStart payload with
    | (true, _) => none
    | (false, rx) => rejectAll pair rest rx

/-- What each rejection keeps, all of them keep. -/
theorem rejectAll_induct {I : AichTree → Prop} {attempts : List (Nat × Bytes)}
    (step : ∀ a ∈ attempts, ∀ rx, I rx → I (rx.readRecoveryData pair a.1 a.2).2)
    {rx rx' : AichTree} (hI : I rx) (h : rejectAll pair attempts rx = some rx') : I rx' := by
  induction attempts generalizing rx with
  | nil =>
    cases h
    exact hI
  | cons a attempts ih =>
    obtain ⟨hstep, htail⟩ := List.forall_mem_cons.mp step
    have hnext := hstep rx hI
    rw [rejectAll] at h
    cases hr : rx.readRecoveryData pair a.1 a.2 with
    | mk ok rx₁ =>
      rw [hr] at hnext h
      cases ok with
      | true => cases h
      | false => exact ih htail hnext h

/-- After any payload the receiver is the grown tree, or the planted one after `verify`. -/
theorem after_payload (hroot : Receiver n master root) (hT : Complete pair n true T)
    (h : PartAt n partStart p s) (payload : Bytes) :
    ((AichTree.mk root).readRecoveryData pair partStart payload).2 =
        ⟨root.grow (p.take MAX_LEVEL)⟩ ∨
      p.length < MAX_LEVEL ∧ ∃ t, Receiver n master t ∧
        ((AichTree.mk root).readRecoveryData pair partStart payload).2 =
          ⟨(Node.verify pair true t).2⟩ := by
  obtain hno | ⟨hlen, w, bound, cur, hw, hcur, habs⟩ :=
    @readRecoveryData_cases pair _ _ _ _ _ _ hroot h.aligned h.inside h.covers payload
  · exact .inl (by rw [hno])
  · have hgrown := hroot.grow hT (h.complete hT).present
    have hplanted := hgrown.plantRecords hw bound
      (recordCount p (min PARTSIZE (n - partStart))) cur
    have hcut := plantRecords_ne_cut hw bound (recordCount p (min PARTSIZE (n - partStart)))
      (root.grow p) hcur
    rw [habs]
    generalize (root.grow p).plantRecords w bound _ cur = result at hplanted hcut
    obtain ⟨verdict, t⟩ := result
    refine .inr ⟨hlen, t, hplanted, ?_⟩
    cases verdict with
    | cut => exact absurd rfl hcut
    | refused => rfl
    | done =>
      simp only [AichTree.absorb, AichTree.verifyPart]
      cases hv : Node.verify pair true t with
      | mk ok v => cases ok <;> rfl

theorem receiver_grow_take (hroot : Receiver n master root) (hT : Complete pair n true T)
    (h : PartAt n partStart p s) (k : Nat) : Receiver n master (root.grow (p.take k)) := by
  refine hroot.grow hT ?_
  have hp := (h.complete hT).present
  rw [← List.take_append_drop k p, sub_append] at hp
  cases hs : T.sub (p.take k) with
  | absent =>
    rw [hs, sub_absent] at hp
    cases hp
  | node => rfl

theorem receiver_after (hroot : Receiver n master root) (hT : Complete pair n true T)
    (h : PartAt n partStart p s) (payload : Bytes) :
    Receiver n master ((AichTree.mk root).readRecoveryData pair partStart payload).2.root := by
  obtain he | ⟨-, t, ht, he⟩ := @after_payload pair _ _ _ _ _ _ _ hroot hT h payload
  · rw [he]
    exact receiver_grow_take hroot hT h MAX_LEVEL
  · rw [he]
    exact ht.verify

/-! ## At most two blocks -/

/-- In a file of one block there is nothing below the root. -/
theorem below_of_leaf (hroot : Receiver n master root) (hn : n ≤ baseFor n)
    (hM : T.hash = some master) : Below root T := by
  refine hroot.below_of_bare ?_ hM
  have hs := hroot.shaped
  cases hs with
  | absent => trivial
  | leaf => exact ⟨rfl, rfl⟩
  | inner hn' => omega

/-- In a file of two blocks: both leaves without a hash, or both with the true one. -/
def Calm (T t : Node) : Prop :=
  ((t.sub [true]).hash = none ∧ (t.sub [false]).hash = none) ∨
    ((t.sub [true]).hash = (T.sub [true]).hash ∧ (t.sub [false]).hash = (T.sub [false]).hash)

theorem leftSize_two {n : Nat} (hn : EMBLOCKSIZE < n) (h2 : n ≤ 2 * EMBLOCKSIZE) :
    leftSize n true = EMBLOCKSIZE := by
  have hE : EMBLOCKSIZE = 184320 := rfl
  have hP : PARTSIZE = 9728000 := rfl
  have hs : leftSize n true =
      (n / 184320 + (if n % 184320 = 0 then 0 else 1) + 1) / 2 * 184320 := by
    rw [leftSize, baseFor_of_le (by omega)]
    rfl
  split at hs <;> omega

theorem filled_of_leaf {n : Nat} {s : Bool} {t : Node} (ht : Shaped n s t) (hn : n ≤ baseFor n) :
    filled pair t = t := by
  cases ht with
  | absent => rfl
  | leaf =>
    unfold filled
    split <;> rfl
  | inner hn' => omega

/-- `verify` on a receiver of two blocks leaves it calm. -/
theorem calm_verify (hn : EMBLOCKSIZE < n) (h2 : n ≤ 2 * EMBLOCKSIZE)
    (hroot : Receiver n master root) (hT : Complete pair n true T) (hM : T.hash = some master)
    (hpre : NoSecondPreimage pair T) : Calm T (Node.verify pair true root).2 := by
  have hls := leftSize_two hn h2
  have hleafL : leftSize n true ≤ baseFor (leftSize n true) := le_baseFor_iff.mpr hls.le
  have hleafR : n - leftSize n true ≤ baseFor (n - leftSize n true) :=
    le_baseFor_iff.mpr (by omega)
  obtain ⟨hshape, hhash⟩ := hroot
  cases hT with
  | leaf _ hle =>
    have := le_baseFor_iff.mp hle
    omega
  | @inner _ _ L R lh rh hin hL hR hlh hrh =>
    cases hshape with
    | absent => cases hhash
    | leaf hle => omega
    | @inner _ _ h l r _ hl hr =>
      cases hhash
      have hm : pair lh rh = master := Option.some.inj hM
      rw [Node.verify]
      simp only [filled_of_leaf hl hleafL, filled_of_leaf hr hleafR]
      split
      · rename_i a b ha hb
        split
        · exact .inl ⟨rfl, rfl⟩
        · rename_i hab
          obtain ⟨rfl, rfl⟩ := hpre.1 lh rh hlh hrh a b ((not_not.mp hab).trans hm.symm)
          have hvl := (@hash_verify pair l).trans ha
          have hvr := (@hash_verify pair r).trans hb
          right
          split
          · simp only [Node.sub]
            exact ⟨hvl.trans hlh.symm, hb.trans hrh.symm⟩
          · simp only [Node.sub]
            exact ⟨hvl.trans hlh.symm, hvr.trans hrh.symm⟩
      · rename_i ha hb
        left
        simp only [Node.sub]
        exact ⟨ha, hb⟩
      · exact .inl ⟨rfl, rfl⟩

theorem calm_of_bare (hb : Bare root) : Calm T root := by
  cases root with
  | absent => exact .inl ⟨rfl, rfl⟩
  | node h n s b l r =>
    obtain ⟨rfl, rfl⟩ := hb
    exact .inl ⟨rfl, rfl⟩

theorem below_of_calm (hn : EMBLOCKSIZE < n) (h2 : n ≤ 2 * EMBLOCKSIZE)
    (hroot : Receiver n master root) (hM : T.hash = some master) (hc : Calm T root) :
    Below root T := by
  have hls := leftSize_two hn h2
  have hleafL : leftSize n true ≤ baseFor (leftSize n true) := le_baseFor_iff.mpr hls.le
  have hleafR : n - leftSize n true ≤ baseFor (n - leftSize n true) :=
    le_baseFor_iff.mpr (by omega)
  have hchild : ∀ {m : Nat} {s : Bool} {t : Node}, Shaped m s t → m ≤ baseFor m →
      ∀ d q, t.sub (d :: q) = .absent := by
    intro m s t ht hle d q
    cases ht with
    | absent => rfl
    | leaf => cases d <;> simp [Node.sub]
    | inner hn' => omega
  rintro (_ | ⟨d, _ | ⟨e, q⟩⟩) x hq
  · rw [sub_nil] at hq ⊢
    rw [hM, ← hroot.hash, hq]
  · obtain ⟨hl, hr⟩ | ⟨hl, hr⟩ := hc
    · cases d
      · rw [hr] at hq
        cases hq
      · rw [hl] at hq
        cases hq
    · cases d
      · rw [← hr, hq]
      · rw [← hl, hq]
  · have hs := hroot.shaped
    have hnone : root.sub (d :: e :: q) = .absent := by
      cases hs with
      | absent => rfl
      | leaf hle =>
        have := le_baseFor_iff.mp hle
        omega
      | inner _ hl hr =>
        cases d
        · exact hchild hr hleafR e q
        · exact hchild hl hleafL e q
    rw [hnone] at hq
    cases hq

/-! ## More than two blocks -/

/-- No hash anywhere. -/
def Blank (t : Node) : Prop := ∀ q, (t.sub q).hash = none

theorem blank_recalculate {t : Node} (h : Blank t) (b : Bool) : Blank (recalculate pair b t).2 := by
  induction t with
  | absent => exact h
  | node h' n s base l r ihl ihr =>
    have hl := ihl fun q => h (true :: q)
    have hr := ihr fun q => h (false :: q)
    have hh : h' = none := h []
    subst hh
    by_cases hhalf : l.isAbsent = true ∨ r.isAbsent = true
    · rw [recalculate_half b (by simpa [Node.sub] using hhalf)]
      exact h
    · rw [not_or, Bool.not_eq_true, Bool.not_eq_true] at hhalf
      intro q
      cases q with
      | nil =>
        have hln : (recalculate pair b l).2.hash = none := by
          have := hl []
          rwa [sub_nil] at this
        rw [recalculate]
        simp only [hhalf.1, hhalf.2, hln, Bool.or_self, Bool.false_eq_true, if_false]
        rw [sub_nil]
        split
        · rfl
        · split
          · rfl
          · simp [Node.hash]
      | cons d q =>
        cases d
        · rw [sub_right_recalculate b hhalf.1 hhalf.2]
          split
          · exact hr q
          · exact h (false :: q)
        · rw [sub_left_recalculate b hhalf.1 hhalf.2]
          exact hl q

/-- `recalculate` with `dont_replace` takes no hash away. -/
theorem below_recalculate (t : Node) : Below t (recalculate pair true t).2 := by
  induction t with
  | absent => exact Below.refl _
  | node h n s base l r ihl ihr =>
    by_cases hhalf : l.isAbsent = true ∨ r.isAbsent = true
    · rw [recalculate_half true (by simpa [Node.sub] using hhalf)]
      exact Below.refl _
    · rw [not_or, Bool.not_eq_true, Bool.not_eq_true] at hhalf
      intro q x hq
      cases q with
      | nil =>
        rw [sub_nil] at hq ⊢
        have hx : h = some x := hq
        subst hx
        rw [recalculate]
        simp only [hhalf.1, hhalf.2, Bool.or_self, Bool.false_eq_true, if_false]
        split
        · rfl
        · split <;> rfl
      | cons d q =>
        cases d
        · rw [sub_right_recalculate true hhalf.1 hhalf.2]
          split
          · exact ihr q x hq
          · exact hq
        · rw [sub_left_recalculate true hhalf.1 hhalf.2]
          exact ihl q x hq

theorem below_filled (t : Node) : Below t (filled pair t) := by
  unfold filled
  split
  · exact below_recalculate t
  · exact Below.refl t

/-- The only hashes are the root's and one at `[true, true]`. -/
def Tainted (t : Node) : Prop :=
  ∀ q x, (t.sub q).hash = some x → q = [] ∨ q = [true, true]

/-- On a tainted tree `verify` passes: no child of the root gets a hash. -/
theorem Tainted.verify {t : Node} (ht : Tainted t) {x : Hash20} (hx : t.hash = some x) :
    ∃ v, Node.verify pair true t = (true, v) ∧ Below t v ∧
      ∀ d, v.sub [d] = filled pair (t.sub [d]) := by
  cases t with
  | absent => cases hx
  | node h n s b l r =>
    cases hx
    have hnone : ∀ q, q ≠ [] → q ≠ [true, true] →
        ((Node.node (some x) n s b l r).sub q).hash = none := by
      intro q h1 h2
      cases hq : ((Node.node (some x) n s b l r).sub q).hash with
      | none => rfl
      | some y => exact absurd (ht q y hq) (by simp [h1, h2])
    have hblankr : Blank r := fun q => hnone (false :: q) (by simp) (by simp)
    have hr : (filled pair r).hash = none := by
      have hb : Blank (filled pair r) := by
        unfold filled
        split
        · exact blank_recalculate hblankr true
        · exact hblankr
      have := hb []
      rwa [sub_nil] at this
    have hl : (filled pair l).hash = none := by
      have hl0 : l.hash = none := by
        have := hnone [true] (by simp) (by simp)
        simpa [Node.sub] using this
      rw [filled, hl0]
      cases l with
      | absent => rfl
      | node h' n' s' b' ll lr =>
        cases hl0
        by_cases hhalf : ll.isAbsent = true ∨ lr.isAbsent = true
        · rw [recalculate_half true (by simpa [Node.sub] using hhalf)]
          rfl
        · rw [not_or, Bool.not_eq_true, Bool.not_eq_true] at hhalf
          have hblank : Blank lr := fun q => hnone (true :: false :: q) (by simp) (by simp)
          have hlr : (recalculate pair true lr).2.hash = none := by
            have := @blank_recalculate pair _ hblank true []
            rwa [sub_nil] at this
          simp only [Option.isNone_none, if_true]
          rw [recalculate]
          simp only [hhalf.1, hhalf.2, Bool.or_self, Bool.false_eq_true, if_false, hlr]
          split
          · rfl
          · split <;> simp [Node.hash]
    refine ⟨.node (some x) n s b (filled pair l) (filled pair r), ?_, ?_, ?_⟩
    · rw [Node.verify]
      simp only [hl, hr]
    · exact below_node.mpr ⟨fun _ h => h, below_filled l, below_filled r⟩
    · intro d
      cases d <;> simp [Node.sub]

/-- Only the forged hash two levels below the root, as often as records are expected. -/
def residueRecords (count : Nat) (f : Hash20) : List (List Bool × Hash20) :=
  List.replicate count ([true, true], f)

/-- Some leaf of the part is not the node at `[true, true]`. -/
theorem exists_other_leaf (h : PartAt n partStart p s) (hT : Complete pair n true T)
    (hn : EMBLOCKSIZE < n) :
    ∃ r ∈ (T.sub p).leafRecords, p ++ r.1 ≠ [true, true] ∧ p ++ r.1 ≠ [] := by
  have hP := h.complete hT
  generalize hz : T.sub p = P at hP
  generalize hsz : min PARTSIZE (n - partStart) = size at hP
  cases hP with
  | leaf x hle =>
    have hcov := h.covers
    rw [hsz] at hcov
    have hin := h.inside
    have hsize := le_baseFor_iff.mp hle
    have hE : EMBLOCKSIZE = 184320 := rfl
    have hPP : PARTSIZE = 9728000 := rfl
    refine ⟨([], x), by simp [leafRecords], ?_, ?_⟩
    · rw [List.append_nil]
      intro hp
      subst hp
      cases hcov with
      | left h1 hc1 =>
        cases hc1 with
        | left h2 hc2 =>
          cases hc2
          omega
    · rw [List.append_nil]
      intro hp
      subst hp
      cases hcov
      omega
  | @inner _ _ l r lh rh hin hl hr _ _ =>
    obtain ⟨rl, hrl⟩ := List.exists_mem_of_ne_nil _ hl.leafRecords_ne_nil
    obtain ⟨rr, hrr⟩ := List.exists_mem_of_ne_nil _ hr.leafRecords_ne_nil
    rw [leafRecords_inner hl.present]
    by_cases hp : p ++ true :: rl.1 = [true, true]
    · refine ⟨_, List.mem_append_right _ (List.mem_map_of_mem hrr), ?_, by simp [Prod.map]⟩
      simp only [Prod.map]
      intro hp'
      have heq := List.append_cancel_left (hp.trans hp'.symm)
      cases heq
    · exact ⟨_, List.mem_append_left _ (List.mem_map_of_mem hrl), hp, by simp [Prod.map]⟩

/-- A payload of one forged hash, two levels below the root and repeated. -/
def residuePayload (count : Nat) (f : Hash20) : Bytes := payloadOf false (residueRecords count f)

/-- A fresh receiver rejects it and keeps the forged hash. -/
theorem residue_rejected (hroot : Receiver n master root) (hbare : Bare root)
    (hT : Complete pair n true T) (h : PartAt n partStart p s) (hn : 2 * EMBLOCKSIZE < n)
    (hlevel : p.length < MAX_LEVEL) (f : Hash20) :
    ∃ rx, (AichTree.mk root).readRecoveryData pair partStart
        (residuePayload (recordCount p (min PARTSIZE (n - partStart))) f) = (false, rx) ∧
      (rx.root.sub [true, true]).hash = some f := by
  generalize hcnt : recordCount p (min PARTSIZE (n - partStart)) = count
  have hcount : (residueRecords count f).length =
      recordCount p (min PARTSIZE (n - partStart)) := by
    rw [residueRecords, List.length_replicate, hcnt]
  have hpos : 0 < count := by
    have hs := h.size_pos
    have hlen := length_leafRecords h hT
    have hne := List.length_pos_iff.mpr (h.complete hT).leafRecords_ne_nil
    rw [← hcnt, recordCount]
    omega
  have hne : residueRecords count f ≠ [] := by
    intro hnil
    have := congrArg List.length hnil
    rw [residueRecords, List.length_replicate] at this
    simp at this
    omega
  have hencodable : Encodable (identWidth false) (identBound false) (residueRecords count f) := by
    intro r hr
    rw [residueRecords, List.mem_replicate] at hr
    rw [hr.2]
    show [true, true] ≠ [] ∧ [true, true].length ≤ 31 ∧ ofPath [true, true] ≤ 0xFFFF ∧
      ofPath [true, true] < 256 ^ 2
    decide
  have hgrown := hroot.grow hT (h.complete hT).present
  -- the node at `[true, true]` exists in a tree of more than two blocks
  have hsub : (T.sub [true, true]).isAbsent = false := by
    have hE : EMBLOCKSIZE = 184320 := rfl
    have hPP : PARTSIZE = 9728000 := rfl
    cases hT with
    | leaf _ hle =>
      have := le_baseFor_iff.mp hle
      omega
    | @inner _ _ l r _ _ hin hl hr _ _ =>
      simp only [Node.sub]
      have hleft : EMBLOCKSIZE < leftSize n true := by
        by_cases hP : n ≤ PARTSIZE
        · have hs : leftSize n true =
              (n / 184320 + (if n % 184320 = 0 then 0 else 1) + 1) / 2 * 184320 := by
            rw [leftSize, baseFor_of_le hP]
            rfl
          split at hs <;> omega
        · have hs := leftSize_root (Nat.lt_of_not_le hP)
          split at hs <;> omega
      cases hl with
      | leaf _ hle =>
        have := le_baseFor_iff.mp hle
        omega
      | inner _ hll _ _ _ =>
        simp only [Node.sub]
        exact hll.present
  have hdone := hT.setAll_done hgrown.shaped (by rw [isAbsent_grow]; exact hroot.present)
    (show ∀ r ∈ residueRecords count f, _ by
      intro r hr
      rw [residueRecords, List.mem_replicate] at hr
      rw [hr.2]
      exact hsub)
  have hkept := @setAll_induct
    (fun t => Receiver n master t ∧ Tainted t ∧
      ∀ x, (t.sub [true, true]).hash = some x → x = f) (residueRecords count f)
    (by
      rintro r hr t ⟨hrt, htaint, hall⟩
      rw [residueRecords, List.mem_replicate] at hr
      rw [hr.2]
      refine ⟨hrt.setPath f (by simp), ?_, ?_⟩
      · intro q x hx
        rw [hash_sub_setPath] at hx
        split at hx
        · rename_i hq
          exact .inr hq.1
        · exact htaint q x hx
      · intro x hx
        rw [hash_sub_setPath] at hx
        split at hx
        · cases ho : (t.sub [true, true]).hash with
          | none =>
            rw [ho] at hx
            cases hx
            rfl
          | some y =>
            rw [ho] at hx
            cases hx
            exact hall _ ho
        · exact hall x hx)
    (root.grow p)
    (by
      have hbarehash : ∀ q x, ((root.grow p).sub q).hash = some x → q = [] := by
        intro q x hx
        rw [hash_sub_grow] at hx
        cases root with
        | absent => simp [Node.hash] at hx
        | node h' n' s' b l r =>
          obtain ⟨rfl, rfl⟩ := hbare
          cases q with
          | nil => rfl
          | cons c q => cases c <;> simp [Node.sub, Node.hash] at hx
      refine ⟨hgrown, fun q x hx => .inl (hbarehash q x hx), ?_⟩
      intro x hx
      exact absurd (hbarehash _ x hx) (List.cons_ne_nil _ _))
  generalize ht : (setAll (residueRecords count f) (root.grow p)).2 = t at hdone hkept
  obtain ⟨hrt, htaint, hall⟩ := hkept
  have hforged : (t.sub [true, true]).hash = some f := by
    obtain ⟨x, hx⟩ := hash_of_setAll hdone
      (r := ([true, true], f)) (List.mem_replicate.mpr ⟨hpos.ne', rfl⟩)
    rw [hall x hx] at hx
    exact hx
  obtain ⟨v, hv, hkv, hvsub⟩ := @Tainted.verify pair _ htaint _ hrt.hash
  have hrv : Receiver n master v := by
    have := @Receiver.verify pair _ _ _ hrt
    rwa [hv] at this
  have hsweep : AichTree.sweep partStart ⟨v⟩ = false := by
    by_contra hne
    rw [Bool.not_eq_false] at hne
    obtain ⟨r, hr, hother, hroot'⟩ := exists_other_leaf h hT (by omega)
    have hsome := ((sweep_iff hrv h hT).mp hne r hr).2
    -- a leaf keeps the hash it had before `verify`: none
    have hleaf : (v.sub (p ++ r.1)).hash = (t.sub (p ++ r.1)).hash := by
      have hmem := hT.mem_leafRecords_sub h.covers hr
      have hs := hrt.shaped
      cases hT with
      | leaf _ hle =>
        have := le_baseFor_iff.mp hle
        omega
      | inner _ hL hR _ _ =>
        cases hs with
        | absent => cases hrt.hash
        | leaf hle =>
          have := le_baseFor_iff.mp hle
          omega
        | inner _ hl hr' =>
          rw [leafRecords_inner hL.present, List.mem_append, List.mem_map, List.mem_map] at hmem
          obtain ⟨q, hq, he⟩ | ⟨q, hq, he⟩ := hmem
          · have hpath : p ++ r.1 = true :: q.1 := (congrArg Prod.fst he).symm
            have hside := hvsub true
            rw [hpath, show true :: q.1 = [true] ++ q.1 from rfl, sub_append, sub_append, hside]
            exact hL.leaf_filled hl hq
          · have hpath : p ++ r.1 = false :: q.1 := (congrArg Prod.fst he).symm
            have hside := hvsub false
            rw [hpath, show false :: q.1 = [false] ++ q.1 from rfl, sub_append, sub_append, hside]
            exact hR.leaf_filled hr' hq
    rw [hleaf] at hsome
    obtain ⟨x, hx⟩ := Option.isSome_iff_exists.mp hsome
    exact (htaint _ x hx).elim hroot' hother
  have hread := @readRecoveryData_payload pair _ _ _ _ _ _ hroot h.aligned h.inside h.covers hlevel
    false _ hcount hne (by rw [hcount]; exact recordCount_lt hlevel) hencodable
  refine ⟨⟨v⟩, ?_, hkv _ _ hforged⟩
  rw [residuePayload, hread, hdone]
  simp only [AichTree.absorb, AichTree.verifyPart, hv, hsweep]
  simp

/-- Where the part lies beyond the level cap, a payload only grows the tree. -/
theorem after_payload_deep (hroot : Receiver n master root) (hT : Complete pair n true T)
    (h : PartAt n partStart p s) (hdeep : MAX_LEVEL ≤ p.length) (hb : Below root T)
    (payload : Bytes) :
    Receiver n master ((AichTree.mk root).readRecoveryData pair partStart payload).2.root ∧
      Below ((AichTree.mk root).readRecoveryData pair partStart payload).2.root T := by
  obtain he | ⟨hlt, -⟩ := @after_payload pair _ _ _ _ _ _ _ hroot hT h payload
  · rw [he]
    exact ⟨receiver_grow_take hroot hT h MAX_LEVEL, below_grow _ hb⟩
  · omega

/-- A part is found in the complete tree unless it lies beyond the level cap. -/
theorem find_part_none_iff (h : PartAt n partStart p s) (hT : Complete pair n true T) :
    T.find MAX_LEVEL partStart ((AichTree.mk T).partSize partStart) = none ↔
      MAX_LEVEL ≤ p.length := by
  obtain ⟨x, hx⟩ := hT.exists_hash
  have hin := h.inside
  rw [(receiver_of_complete hT hx).partSize, find_eq h.covers (by omega) hT.shaped,
    (h.complete hT).present]
  simp

theorem createPartRecoveryData_deep (h : PartAt n partStart p s) (hT : Complete pair n true T)
    (hdeep : MAX_LEVEL ≤ p.length) : ((AichTree.mk T).createPartRecoveryData partStart).1 = none := by
  have hsize : (AichTree.mk T).fileSize = n := hT.dataSize
  have hin := h.inside
  unfold AichTree.createPartRecoveryData
  simp only [AichTree.partSize, hsize]
  split
  · rfl
  · rw [findMut_eq h.covers (by omega) hT.shaped hT.present, if_neg (Nat.not_lt_of_le hdeep)]

theorem createPartRecoveryData_leaf (hT : Complete pair n true T) (hn : n ≤ EMBLOCKSIZE)
    (partStart : Nat) : ((AichTree.mk T).createPartRecoveryData partStart).1 = none := by
  have hsize : (AichTree.mk T).fileSize = n := hT.dataSize
  unfold AichTree.createPartRecoveryData
  simp only [hsize]
  rw [if_pos (.inl hn)]

/-- Two blocks: a calm receiver accepts the honest payload of the file's one part. -/
theorem honest_accepted_two (hn : EMBLOCKSIZE < n) (h2 : n ≤ 2 * EMBLOCKSIZE)
    (hroot : Receiver n master root) (hT : Complete pair n true T) (hM : T.hash = some master)
    (hcalm : Calm T root) (h : PartAt n partStart p s) {payload : Bytes}
    (hpay : ((AichTree.mk T).createPartRecoveryData partStart).1 = some payload) :
    ∃ rx, (AichTree.mk root).readRecoveryData pair partStart payload = (true, rx) ∧
      rx.partBlockHashes partStart = (AichTree.mk T).partBlockHashes partStart := by
  have hE : EMBLOCKSIZE = 184320 := rfl
  have hPP : PARTSIZE = 9728000 := rfl
  have hheight : T.height ≤ 7 := hT.height_le (k := 0) (by omega)
  have hzero : partStart = 0 := Nat.eq_zero_of_dvd_of_lt h.aligned (by have := h.inside; omega)
  have hp : p = [] := by
    by_contra hne
    have hlt := h.covers.size_lt hne
    omega
  subst hp hzero
  have hMAX : MAX_LEVEL = 22 := rfl
  have hcreate := createPartRecoveryData_eq hT h hn (by simp [hMAX]) (by omega) (fun _ => by omega)
  have h32 : decide (OLD_MAX_FILE_SIZE < n) = false := by
    have : OLD_MAX_FILE_SIZE = 4290048000 := rfl
    simp
    omega
  rw [hcreate, h32] at hpay
  cases hpay
  have hrecs : ∀ r ∈ recoveryRecords [] T, r.1 ≠ [] ∧ r.1.length < T.height := fun r hr =>
    ⟨(hT.hash_of_mem_recovery h.covers hr).2.2 hn, (hT.hash_of_mem_recovery h.covers hr).2.1⟩
  have hreach : ∀ r ∈ (T.sub []).leafRecords, ([] ++ r.1).length < MAX_LEVEL := fun r hr =>
    (hrecs _ (hT.mem_recovery_of_leaf h.covers hr)).2.trans_le (by omega)
  have hencodable : Encodable (identWidth false) (identBound false) (recoveryRecords [] T) := by
    intro r hr
    obtain ⟨hne, hlen⟩ := hrecs r hr
    have hlt : ofPath r.1 < 2 ^ 7 := ofPath_lt_of_le (by omega)
    refine ⟨hne, by omega, ?_, ?_⟩
    · show ofPath r.1 ≤ 0xFFFF
      omega
    · show ofPath r.1 < 256 ^ 2
      omega
  have hcount : (recoveryRecords [] T).length = recordCount [] (min PARTSIZE (n - 0)) := by
    rw [hT.length_recoveryRecords h.covers, recordCount, length_leafRecords h hT]
  have hread := @readRecoveryData_payload pair _ _ _ _ _ _ hroot h.aligned h.inside h.covers
    (by simp [hMAX]) false _ hcount (hT.recoveryRecords_ne_nil h.covers)
    (by rw [hcount]; exact recordCount_lt (by simp [hMAX])) hencodable
  rw [hread]
  exact honest_accepted hroot hT hM (below_of_calm hn h2 hroot hM hcalm) h trivial hreach

end

/-- Rejected payloads do no harm exactly in files of at most two blocks, and where every part
    asked for lies beyond the level cap, so that nothing is ever planted. -/
theorem rejected_harmless_iff (pair : Hash20 → Hash20 → Hash20) {n partStart : Nat}
    {leaves : List Hash20} {T : AichTree} {master : Hash20}
    (hT : AichTree.fromLeaves pair n leaves = some T) (hM : T.masterHash = some master)
    (hpre : NoSecondPreimage pair T.root) {parts : Set Nat}
    (hparts : ∀ q ∈ parts, PARTSIZE ∣ q ∧ q < n) (hmem : partStart ∈ parts) :
    (∀ attempts rx rx', AichTree.withMaster n master = some rx →
        (∀ a ∈ attempts, a.1 ∈ parts) → rejectAll pair attempts rx = some rx' →
        Below rx'.root T.root ∧
          ∀ payload, (T.createPartRecoveryData partStart).1 = some payload →
            ∃ rx'', rx'.readRecoveryData pair partStart payload = (true, rx'') ∧
              rx''.partBlockHashes partStart = T.partBlockHashes partStart) ↔
      n ≤ 2 * EMBLOCKSIZE ∨
        ∀ q ∈ parts, T.root.find MAX_LEVEL q (T.partSize q) = none := by
  obtain ⟨hpos, hc, -⟩ := complete_of_fromLeaves hT
  obtain ⟨root, hroot, hr, hbare⟩ := receiver_withMaster hpos master
  obtain ⟨T⟩ := T
  constructor
  · intro hharm
    by_contra hno
    rw [not_or, not_forall] at hno
    obtain ⟨hn, q, hq⟩ := hno
    rw [Classical.not_imp] at hq
    obtain ⟨hqmem, hfind⟩ := hq
    obtain ⟨p, s, h⟩ := exists_partAt (hparts q hqmem).1 (hparts q hqmem).2
    rw [find_part_none_iff h hc, Nat.not_le] at hfind
    obtain ⟨y, hy⟩ : ∃ y, (T.sub [true, true]).hash = some y ∨ (T.sub [true, true]).hash = none := by
      cases hh : (T.sub [true, true]).hash with
      | none => exact ⟨master, .inr rfl⟩
      | some y => exact ⟨y, .inl rfl⟩
    obtain ⟨f, hf⟩ := exists_ne_hash y
    obtain ⟨rx, hrej, hres⟩ := @residue_rejected pair _ _ _ _ _ _ _ hr hbare hc h (by omega) hfind f
    have hall : rejectAll pair [(q, residuePayload (recordCount p (min PARTSIZE (n - q))) f)]
        ⟨root⟩ = some rx := by
      rw [rejectAll, hrej]
      rfl
    have hbelow := (hharm _ _ _ hroot (by simpa using hqmem) hall).1
    have hy' := hbelow _ _ hres
    obtain hy | hy := hy
    · rw [hy] at hy'
      exact hf (Option.some.inj hy')
    · rw [hy] at hy'
      cases hy'
  · intro hcond attempts rx rx' hrx hatt hall
    rw [hroot] at hrx
    cases hrx
    obtain ⟨p₀, s₀, h₀⟩ := exists_partAt (hparts _ hmem).1 (hparts _ hmem).2
    by_cases hdeep : ∀ q ∈ parts, (AichTree.mk T).root.find MAX_LEVEL q
        ((AichTree.mk T).partSize q) = none
    · have hkept := @rejectAll_induct pair
        (fun rx => Receiver n master rx.root ∧ Below rx.root T) _ (by
          intro a ha ⟨t⟩ ⟨ht, hb⟩
          obtain ⟨p, s, h⟩ := exists_partAt (hparts _ (hatt a ha)).1 (hparts _ (hatt a ha)).2
          exact after_payload_deep ht hc h ((find_part_none_iff h hc).mp (hdeep _ (hatt a ha))) hb
            a.2) _ _ ⟨hr, hr.below_of_bare hbare hM⟩ hall
      refine ⟨hkept.2, fun payload hpay => ?_⟩
      rw [createPartRecoveryData_deep h₀ hc ((find_part_none_iff h₀ hc).mp (hdeep _ hmem))] at hpay
      cases hpay
    · have hn := hcond.resolve_right hdeep
      by_cases hone : n ≤ EMBLOCKSIZE
      · have hkept := @rejectAll_induct pair (fun rx => Receiver n master rx.root) _ (by
          intro a ha ⟨t⟩ ht
          obtain ⟨p, s, h⟩ := exists_partAt (hparts _ (hatt a ha)).1 (hparts _ (hatt a ha)).2
          exact receiver_after ht hc h a.2) _ _ hr hall
        refine ⟨below_of_leaf hkept (le_baseFor_iff.mpr hone) hM, fun payload hpay => ?_⟩
        rw [createPartRecoveryData_leaf hc hone] at hpay
        cases hpay
      · rw [Nat.not_le] at hone
        have hkept := @rejectAll_induct pair
          (fun rx => Receiver n master rx.root ∧ Calm T rx.root) _ (by
            intro a ha ⟨t⟩ ⟨ht, hcalm⟩
            obtain ⟨p, s, h⟩ := exists_partAt (hparts _ (hatt a ha)).1 (hparts _ (hatt a ha)).2
            refine ⟨receiver_after ht hc h a.2, ?_⟩
            obtain he | ⟨-, u, hu, he⟩ := @after_payload pair _ _ _ _ _ _ _ ht hc h a.2
            · rw [he]
              unfold Calm at hcalm ⊢
              rwa [hash_sub_grow, hash_sub_grow]
            · rw [he]
              exact calm_verify hone hn hu hc hM hpre) _ _ ⟨hr, calm_of_bare hbare⟩ hall
        obtain ⟨root'⟩ := rx'
        exact ⟨below_of_calm hone hn hkept.1 hM hkept.2, fun payload hpay =>
          honest_accepted_two hone hn hkept.1 hc hM hkept.2 h₀ hpay⟩

/-- A file of two blocks survives a rejected empty payload. -/
theorem two_blocks_survive_rejection :
    ∃ rx rx', AichTree.withMaster (2 * EMBLOCKSIZE) (Digest.fill 20 0) = some rx ∧
      rejectAll countdownPair [(0, [])] rx = some rx' ∧
      Below rx'.root (depthTree 0 (2 * EMBLOCKSIZE) true) := by
  obtain ⟨root, hroot, hr, hbare⟩ := receiver_withMaster (n := 2 * EMBLOCKSIZE) (by decide)
    (Digest.fill 20 0)
  have hempty : ((AichTree.mk root).readRecoveryData countdownPair 0 []).1 = false := by
    unfold AichTree.readRecoveryData
    split
    · rfl
    · dsimp only
      split <;> rfl
  have hrej : ∃ rx', rejectAll countdownPair [(0, [])] ⟨root⟩ = some rx' := by
    rw [rejectAll]
    cases hr' : (AichTree.mk root).readRecoveryData countdownPair 0 [] with
    | mk ok rx =>
      rw [hr'] at hempty
      cases hempty
      exact ⟨rx, rfl⟩
  obtain ⟨rx', hrx'⟩ := hrej
  exact ⟨⟨root⟩, rx', hroot, hrx', ((rejected_harmless_iff countdownPair
    (fromLeaves_depthTree (by decide)) (hash_depthTree 0 _ true)
    (noSecondPreimage_depthTree 0 _ true)
    (show ∀ q ∈ ({0} : Set Nat), PARTSIZE ∣ q ∧ q < _ by simp; decide) (Set.mem_singleton 0)).mpr
      (.inl (Nat.le_refl _)) _ _ _ hroot (by simp) hrx').1⟩

/-- Three blocks: one forged hash two levels down is rejected, and still there. -/
theorem forged_hash_survives_rejection :
    ∃ rx rx', NoSecondPreimage countdownPair (depthTree 0 (3 * EMBLOCKSIZE) true) ∧
      AichTree.withMaster (3 * EMBLOCKSIZE) (Digest.fill 20 0) = some rx ∧
      rejectAll countdownPair [(0, residuePayload 3 unevenHash)] rx = some rx' ∧
      (rx'.root.sub [true, true]).hash = some unevenHash ∧
      ((depthTree 0 (3 * EMBLOCKSIZE) true).sub [true, true]).hash ≠ some unevenHash := by
  have hc := complete_depthTree 0 (3 * EMBLOCKSIZE) true
  obtain ⟨p, s, h⟩ := @exists_partAt (3 * EMBLOCKSIZE) 0 (Nat.dvd_zero _)
    (by decide)
  obtain ⟨root, hroot, hr, hbare⟩ := receiver_withMaster (n := 3 * EMBLOCKSIZE) (by decide)
    (Digest.fill 20 0)
  have hp : p = [] := by
    by_contra hne
    have hlt := h.covers.size_lt hne
    revert hlt
    decide
  subst hp
  obtain ⟨rx, hrej, hres⟩ := @residue_rejected countdownPair _ _ _ _ _ _ _ hr hbare hc h (by decide)
    (by decide) unevenHash
  have hcount : recordCount [] (min PARTSIZE (3 * EMBLOCKSIZE - 0)) = 3 := by decide
  rw [hcount] at hrej
  refine ⟨⟨root⟩, rx, noSecondPreimage_depthTree _ _ _, hroot, ?_, hres, ?_⟩
  · rw [rejectAll, hrej]
    rfl
  · intro hx
    obtain ⟨e, he⟩ := hash_sub_depthTree hx
    exact unevenHash_ne_fill e he

end PadMule.Proto.Aich
