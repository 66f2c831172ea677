import PadMule.Lib.FileMap

/-
  A running vote in which each voter's first vote counts.

  A `Box` keeps the voters of each candidate. `Counts` says what it holds after a sequence of
  votes: exactly the first vote of everybody, in whatever order they came. A candidate wins
  with enough voters and a large enough share; above one half only one can
  (`Counts.wins_unique`), and whoever has the most votes is that one (`Counts.leader_of_wins`).
-/

namespace Ballots

open FileMap

variable {κ ρ : Type} [DecidableEq ρ]

/-- The voters of each candidate. -/
abbrev Box (κ ρ : Type) := Dir ρ (Finset κ)

def signers (box : Box κ ρ) (r : ρ) : Finset κ := (FileMap.get box r).getD ∅

/-- All votes in the box. -/
def total (box : Box κ ρ) : Nat := (box.map fun e => e.2.card).sum

/-- At least `voters` votes, and `percent` of all of them. -/
def Wins (voters percent : Nat) (box : Box κ ρ) (r : ρ) : Prop :=
  voters ≤ (signers box r).card ∧ percent ≤ 100 * (signers box r).card / total box

instance (voters percent : Nat) (box : Box κ ρ) (r : ρ) : Decidable (Wins voters percent box r) :=
  inferInstanceAs (Decidable (_ ∧ _))

/-- The last element with the largest key. -/
def maxByKey {α : Type} (key : α → Nat) : List α → Option α
  | [] => none
  | x :: xs =>
    match maxByKey key xs with
    | none => some x
    | some y => if key y < key x then some x else some y

theorem maxByKey_spec {α : Type} (key : α → Nat) (xs : List α) :
    (maxByKey key xs = none ∧ xs = []) ∨
      ∃ y ∈ xs, maxByKey key xs = some y ∧ ∀ x ∈ xs, key x ≤ key y := by
  induction xs with
  | nil => exact .inl ⟨rfl, rfl⟩
  | cons x xs ih =>
    right
    unfold maxByKey
    rcases ih with ⟨hnone, rfl⟩ | ⟨y, hy, hmax, hle⟩
    · rw [hnone]
      exact ⟨x, List.mem_cons_self .., rfl, fun z hz => by rw [List.mem_singleton.mp hz]⟩
    · rw [hmax]
      dsimp only
      split_ifs with hlt
      · refine ⟨x, List.mem_cons_self .., rfl, fun z hz => ?_⟩
        rcases List.mem_cons.mp hz with rfl | hz
        · exact Nat.le_refl _
        · exact (hle z hz).trans hlt.le
      · refine ⟨y, List.mem_cons_of_mem _ hy, rfl, fun z hz => ?_⟩
        rcases List.mem_cons.mp hz with rfl | hz
        · exact Nat.not_lt.mp hlt
        · exact hle z hz

/-! ## Entries -/

theorem signers_write (box : Box κ ρ) (r : ρ) (s : Finset κ) (q : ρ) :
    signers (write box r s) q = if q = r then s else signers box q := by
  unfold signers
  rw [get_write]
  split_ifs <;> rfl

/-- With each candidate entered once, an entry is what `signers` finds. -/
theorem signers_of_mem {box : Box κ ρ} (h : (names box).Nodup) {e : ρ × Finset κ} (he : e ∈ box) :
    signers box e.1 = e.2 := by
  induction box with
  | nil => cases he
  | cons f box ih =>
    obtain ⟨hf, hbox⟩ := List.nodup_cons.mp h
    unfold signers FileMap.get
    rcases List.mem_cons.mp he with rfl | he
    · rw [List.lookup_cons_self]
      rfl
    · have hne : e.1 ≠ f.1 := fun heq => hf (heq ▸ List.mem_map_of_mem he)
      rw [List.lookup_cons, beq_eq_false_iff_ne.mpr hne]
      exact ih hbox he

theorem exists_of_mem_signers {box : Box κ ρ} {r : ρ} {k : κ} (h : k ∈ signers box r) :
    ∃ e ∈ box, e.1 = r ∧ k ∈ e.2 := by
  unfold signers at h
  cases hget : FileMap.get box r with
  | none =>
    rw [hget] at h
    exact absurd h (Finset.notMem_empty k)
  | some s =>
    rw [hget] at h
    obtain ⟨pre, post, hbox, -⟩ := List.lookup_eq_some_iff.mp hget
    exact ⟨(r, s), hbox ▸ List.mem_append_right _ (List.mem_cons_self ..), rfl, h⟩

/-! ## Casting votes -/

variable [DecidableEq κ]

/-- `k` votes for `r`, unless it has voted for somebody else. -/
def cast (box : Box κ ρ) (k : κ) (r : ρ) : Box κ ρ :=
  if box.any fun e => e.1 ≠ r ∧ k ∈ e.2 then box else write box r (insert k (signers box r))

/-- The box after the votes, of each voter the first one. -/
structure Counts (box : Box κ ρ) (votes : List (κ × ρ)) : Prop where
  nodup : (names box).Nodup
  signed : ∀ r k, k ∈ signers box r ↔ votes.lookup k = some r

theorem counts_nil : Counts ([] : Box κ ρ) [] where
  nodup := List.nodup_nil
  signed r k := by simp [signers, FileMap.get]

omit [DecidableEq ρ] in
theorem mem_voters {votes : List (κ × ρ)} {k : κ} :
    k ∈ (votes.map Prod.fst).toFinset ↔ ∃ r, votes.lookup k = some r := by
  rw [List.mem_toFinset]
  constructor
  · intro hk
    obtain ⟨v, hv, rfl⟩ := List.mem_map.mp hk
    obtain hnone | hsome := Option.eq_none_or_eq_some (votes.lookup v.1)
    · have hother := List.lookup_eq_none_iff.mp hnone v hv
      rw [bne_self_eq_false] at hother
      cases hother
    · exact hsome
  · rintro ⟨r, hr⟩
    obtain ⟨pre, post, hvotes, -⟩ := List.lookup_eq_some_iff.mp hr
    exact List.mem_map.mpr ⟨(k, r), hvotes ▸ List.mem_append_right _ (List.mem_cons_self ..), rfl⟩

namespace Counts

variable {box : Box κ ρ} {votes : List (κ × ρ)}

/-- Whether `k` has voted for somebody else than `r`. -/
theorem any_iff (h : Counts box votes) (k : κ) (r : ρ) :
    (box.any fun e => e.1 ≠ r ∧ k ∈ e.2) = true ↔ ∃ q, votes.lookup k = some q ∧ q ≠ r := by
  simp only [List.any_eq_true, decide_eq_true_eq]
  constructor
  · rintro ⟨e, he, hne, hk⟩
    exact ⟨e.1, (h.signed e.1 k).mp (by rwa [signers_of_mem h.nodup he]), hne⟩
  · rintro ⟨q, hq, hne⟩
    obtain ⟨e, he, rfl, hk⟩ := exists_of_mem_signers ((h.signed q k).mpr hq)
    exact ⟨e, he, hne, hk⟩

theorem cast (h : Counts box votes) (k : κ) (r : ρ) :
    Counts (cast box k r) (votes ++ [(k, r)]) := by
  have hlookup : ∀ j, (votes ++ [(k, r)]).lookup j =
      (votes.lookup j).or (if j = k then some r else none) := by
    intro j
    rw [List.lookup_append, List.lookup_cons]
    by_cases hj : j = k
    · simp [hj]
    · rw [if_neg hj, beq_eq_false_iff_ne.mpr hj]
      rfl
  unfold Ballots.cast
  split_ifs with hany
  · obtain ⟨q, hq, hne⟩ := (h.any_iff k r).mp hany
    refine ⟨h.nodup, fun s j => ?_⟩
    rw [h.signed, hlookup]
    by_cases hj : j = k
    · rw [hj, hq, Option.some_or]
    · rw [if_neg hj, Option.or_none]
  · refine ⟨nodup_write h.nodup r _, fun s j => ?_⟩
    have hfree : ∀ q, votes.lookup k = some q → q = r := fun q hq => by
      by_contra hne
      exact hany ((h.any_iff k r).mpr ⟨q, hq, hne⟩)
    rw [signers_write, hlookup]
    by_cases hs : s = r
    · subst hs
      rw [if_pos rfl, Finset.mem_insert, h.signed]
      by_cases hj : j = k
      · subst hj
        cases hvote : votes.lookup j with
        | none => simp
        | some q => simp [hfree q hvote]
      · simp [hj]
    · rw [if_neg hs, h.signed]
      by_cases hj : j = k
      · subst hj
        cases hvote : votes.lookup j with
        | none => simp [Ne.symm hs]
        | some q => simp
      · simp [hj]

/-! ## The share of a candidate -/

theorem disjoint (h : Counts box votes) {r q : ρ} (hne : r ≠ q) :
    Disjoint (signers box r) (signers box q) := by
  refine Finset.disjoint_left.mpr fun k hr hq => hne ?_
  have hlookup := (h.signed r k).mp hr
  rw [(h.signed q k).mp hq, Option.some.injEq] at hlookup
  exact hlookup.symm

/-- Nobody is counted twice. -/
theorem total_eq (h : Counts box votes) : total box = (votes.map Prod.fst).toFinset.card := by
  have hvoters : (names box).toFinset.biUnion (signers box) = (votes.map Prod.fst).toFinset := by
    ext k
    rw [Finset.mem_biUnion, mem_voters]
    constructor
    · rintro ⟨r, -, hk⟩
      exact ⟨r, (h.signed r k).mp hk⟩
    · rintro ⟨r, hr⟩
      have hk := (h.signed r k).mpr hr
      obtain ⟨e, he, rfl, -⟩ := exists_of_mem_signers hk
      exact ⟨e.1, List.mem_toFinset.mpr (List.mem_map_of_mem he), hk⟩
  have hentries : box.map (fun e => e.2.card) = (names box).map fun r => (signers box r).card := by
    rw [names, List.map_map]
    exact List.map_congr_left fun e he => by rw [Function.comp_apply, signers_of_mem h.nodup he]
  rw [← hvoters, Finset.card_biUnion fun r _ q _ hne => h.disjoint hne, total, hentries,
    List.sum_toFinset _ h.nodup]

theorem card_add_card_le (h : Counts box votes) {r q : ρ} (hne : r ≠ q) :
    (signers box r).card + (signers box q).card ≤ total box := by
  rw [h.total_eq, ← Finset.card_union_of_disjoint (h.disjoint hne)]
  refine Finset.card_le_card fun k hk => mem_voters.mpr ?_
  rcases Finset.mem_union.mp hk with hk | hk
  · exact ⟨r, (h.signed r k).mp hk⟩
  · exact ⟨q, (h.signed q k).mp hk⟩

variable {voters percent : Nat}

/-- With more than half of the votes needed, only one candidate wins. -/
theorem wins_unique (h : Counts box votes) (hhalf : 50 < percent) {r q : ρ}
    (hr : Wins voters percent box r) (hq : Wins voters percent box q) : r = q := by
  by_contra hne
  have hsum := h.card_add_card_le hne
  have hshare : ∀ s, Wins voters percent box s →
      0 < total box ∧ percent * total box ≤ 100 * (signers box s).card := by
    intro s hs
    have hpos : 0 < total box := by
      by_contra hzero
      have hdiv := hs.2
      rw [Nat.eq_zero_of_not_pos hzero, Nat.div_zero] at hdiv
      omega
    exact ⟨hpos, (Nat.le_div_iff_mul_le hpos).mp hs.2⟩
  obtain ⟨hpos, hr⟩ := hshare r hr
  obtain ⟨-, hq⟩ := hshare q hq
  have hhalf : 51 * total box ≤ percent * total box := Nat.mul_le_mul_right _ hhalf
  omega

/-- The candidate with the most votes wins if anybody does. -/
theorem leader_of_wins (h : Counts box votes) (hhalf : 50 < percent) {order : List ρ}
    (horder : order.Perm (names box)) {best r : ρ}
    (hbest : maxByKey (fun r => (signers box r).card) order = some best)
    (hpos : 0 < voters) (hr : Wins voters percent box r) : best = r := by
  have hmem : r ∈ order := by
    obtain ⟨k, hk⟩ := Finset.card_pos.mp (hpos.trans_le hr.1)
    obtain ⟨e, he, rfl, -⟩ := exists_of_mem_signers hk
    exact horder.mem_iff.mpr (List.mem_map_of_mem he)
  obtain ⟨hnone, -⟩ | ⟨y, -, hy, hle⟩ := maxByKey_spec (fun r => (signers box r).card) order
  · rw [hnone] at hbest
    cases hbest
  · rw [hy] at hbest
    cases hbest
    have hmost := hle r hmem
    refine h.wins_unique hhalf ⟨hr.1.trans hmost, hr.2.trans ?_⟩ hr
    exact Nat.div_le_div_right (Nat.mul_le_mul_left 100 hmost)

/-- Only everybody's first vote matters, and no order among voters. -/
theorem wins_congr (h : Counts box votes) {box' : Box κ ρ} {votes' : List (κ × ρ)}
    (h' : Counts box' votes') (hfirst : ∀ k, votes.lookup k = votes'.lookup k) (r : ρ) :
    Wins voters percent box r ↔ Wins voters percent box' r := by
  have hsigners : signers box r = signers box' r := by
    ext k
    rw [h.signed, h'.signed, hfirst]
  have htotal : total box = total box' := by
    rw [h.total_eq, h'.total_eq]
    congr 1
    ext k
    simp only [mem_voters, hfirst]
  unfold Wins
  rw [hsigners, htotal]

end Counts

end Ballots
