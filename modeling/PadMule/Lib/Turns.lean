import Mathlib.Data.List.Basic
import Mathlib.Tactic

/-
  Who gets a turn between two turns of another.

  A log has one entry for each round, `chosen` is who had the turn and `eligible r e d` says that in
  the round `r` the turn could have been `e`'s in place of `d`'s. `NeverStarves` asks for a turn of
  `e` between any two turns of `d` through which `e` was eligible. A log grows at its end, and there
  it is enough to look at the rounds since the last turn of `d` (`neverStarves_concat`).

  `stamp` is the time of someone's last turn. Where the rounds have strictly increasing times,
  whoever had no turn since the last one of `d` has an older stamp (`stamp_lt`).
-/

namespace Turns

variable {ρ ι : Type*} {chosen : ρ → Option ι} {eligible : ρ → ι → ι → Prop}

def NeverStarves (chosen : ρ → Option ι) (eligible : ρ → ι → ι → Prop) (log : List ρ) : Prop :=
  ∀ before first mid last after d e, log = before ++ first :: (mid ++ last :: after) →
    chosen first = some d → chosen last = some d → (∀ r ∈ mid, chosen r ≠ some d) → e ≠ d →
    (∀ r ∈ first :: (mid ++ [last]), eligible r e d) → ∃ r ∈ mid, chosen r = some e

theorem neverStarves_nil : NeverStarves chosen eligible [] := by
  intro before first mid last after d e hlog
  simp at hlog

/-- The rounds with a turn have strictly increasing times. -/
def Ticks (chosen : ρ → Option ι) (time : ρ → Nat) (log : List ρ) : Prop :=
  (log.filter fun r => (chosen r).isSome).Pairwise fun r r' => time r < time r'

theorem Ticks.of_concat {time : ρ → Nat} {log : List ρ} {r : ρ}
    (h : Ticks chosen time (log ++ [r])) : Ticks chosen time log := by
  rw [Ticks, List.filter_append] at h
  exact (List.pairwise_append.mp h).1

variable [DecidableEq ι]

/-- The round of the last turn of `d`, and the rounds since. -/
def sinceTurn (chosen : ρ → Option ι) (d : ι) (log : List ρ) : Option (ρ × List ρ) :=
  log.foldl (fun acc r =>
    if chosen r = some d then some (r, []) else acc.map fun p => (p.1, p.2 ++ [r])) none

/-- The time of the last turn of `d`, and 0 before the first. -/
def stamp (chosen : ρ → Option ι) (time : ρ → Nat) (log : List ρ) (d : ι) : Nat :=
  log.foldl (fun t r => if chosen r = some d then time r else t) 0

/-- Nobody who was eligible since the last turn of the one chosen now has waited in vain. -/
def Fair (chosen : ρ → Option ι) (eligible : ρ → ι → ι → Prop) (log : List ρ) (last : ρ) : Prop :=
  ∀ d first mid e, chosen last = some d → sinceTurn chosen d log = some (first, mid) → e ≠ d →
    (∀ r ∈ first :: mid, eligible r e d) → eligible last e d → ∃ r ∈ mid, chosen r = some e

theorem sinceTurn_concat (d : ι) (log : List ρ) (r : ρ) : sinceTurn chosen d (log ++ [r]) =
    if chosen r = some d then some (r, [])
    else (sinceTurn chosen d log).map fun p => (p.1, p.2 ++ [r]) := by
  rw [sinceTurn, List.foldl_append, List.foldl_cons, List.foldl_nil, sinceTurn]

theorem stamp_concat (time : ρ → Nat) (log : List ρ) (r : ρ) (d : ι) :
    stamp chosen time (log ++ [r]) d =
      if chosen r = some d then time r else stamp chosen time log d := by
  rw [stamp, List.foldl_append, List.foldl_cons, List.foldl_nil, stamp]

theorem sinceTurn_eq_some {d : ι} {log mid : List ρ} {first : ρ} :
    sinceTurn chosen d log = some (first, mid) ↔
      (∃ before, log = before ++ first :: mid) ∧ chosen first = some d ∧
        ∀ r ∈ mid, chosen r ≠ some d := by
  induction log using List.reverseRecOn generalizing first mid with
  | nil =>
    refine iff_of_false (by simp [sinceTurn]) fun h => ?_
    obtain ⟨⟨before, hlog⟩, -⟩ := h
    simp at hlog
  | append_singleton log r ih =>
    rw [sinceTurn_concat]
    split_ifs with hr
    · constructor
      · intro heq
        obtain ⟨rfl, rfl⟩ := Prod.mk.inj (Option.some.inj heq)
        exact ⟨⟨log, rfl⟩, hr, fun r' hr' => absurd hr' List.not_mem_nil⟩
      · rintro ⟨⟨before, hlog⟩, hfirst, hmid⟩
        rcases List.eq_nil_or_concat mid with rfl | ⟨mid', r', rfl⟩
        · obtain ⟨-, heq⟩ := List.append_inj' hlog rfl
          rw [List.singleton_inj.mp heq]
        · rw [List.concat_eq_append, ← List.cons_append, ← List.append_assoc] at hlog
          obtain ⟨-, heq⟩ := List.append_inj' hlog rfl
          rw [List.singleton_inj.mp heq] at hr
          exact absurd hr (hmid r' (by simp))
    · rw [Option.map_eq_some_iff]
      constructor
      · rintro ⟨⟨first', mid'⟩, hsince, heq⟩
        obtain ⟨rfl, rfl⟩ := Prod.mk.inj heq
        obtain ⟨⟨before, rfl⟩, hfirst, hmid⟩ := ih.mp hsince
        refine ⟨⟨before, by simp⟩, hfirst, fun r' hr' => ?_⟩
        rcases List.mem_append.mp hr' with hr' | hr'
        · exact hmid r' hr'
        · exact List.mem_singleton.mp hr' ▸ hr
      · rintro ⟨⟨before, hlog⟩, hfirst, hmid⟩
        rcases List.eq_nil_or_concat mid with rfl | ⟨mid', r', rfl⟩
        · obtain ⟨-, heq⟩ := List.append_inj' hlog rfl
          rw [List.singleton_inj.mp heq] at hr
          exact absurd hfirst hr
        · rw [List.concat_eq_append, ← List.cons_append, ← List.append_assoc] at hlog
          obtain ⟨heq', heq⟩ := List.append_inj' hlog rfl
          obtain rfl := List.singleton_inj.mp heq
          refine ⟨(first, mid'), ih.mpr ⟨⟨before, heq'⟩, hfirst, fun r' hr' => ?_⟩, by simp⟩
          exact hmid r' (by simp [hr'])

theorem neverStarves_concat {log : List ρ} {r : ρ} :
    NeverStarves chosen eligible (log ++ [r]) ↔
      NeverStarves chosen eligible log ∧ Fair chosen eligible log r := by
  constructor
  · intro h
    constructor
    · intro before first mid last after d e hlog
      exact h before first mid last (after ++ [r]) d e (by simp [hlog])
    · intro d first mid e hlast hsince hne hall hr
      obtain ⟨⟨before, rfl⟩, hfirst, hmid⟩ := sinceTurn_eq_some.mp hsince
      refine h before first mid r [] d e (by simp) hfirst hlast hmid hne fun r' hr' => ?_
      rw [← List.cons_append] at hr'
      rcases List.mem_append.mp hr' with hr' | hr'
      · exact hall r' hr'
      · exact List.mem_singleton.mp hr' ▸ hr
  · rintro ⟨hlog, hfair⟩ before first mid last after d e heq hfirst hlast hmid hne hall
    rcases List.eq_nil_or_concat after with rfl | ⟨after', r', rfl⟩
    · rw [← List.cons_append, ← List.append_assoc] at heq
      obtain ⟨rfl, hr⟩ := List.append_inj' heq rfl
      obtain rfl := List.singleton_inj.mp hr
      refine hfair d first mid e hlast (sinceTurn_eq_some.mpr ⟨⟨before, rfl⟩, hfirst, hmid⟩) hne
        (fun r' hr' => hall r' ?_) (hall r (by simp))
      rw [← List.cons_append]
      exact List.mem_append_left _ hr'
    · have hsplit : before ++ first :: (mid ++ last :: after'.concat r') =
          (before ++ first :: (mid ++ last :: after')) ++ [r'] := by simp
      obtain ⟨rfl, -⟩ := List.append_inj' (heq.trans hsplit) rfl
      exact hlog before first mid last after' d e rfl hfirst hlast hmid hne hall

variable {time : ρ → Nat}

theorem stamp_of_sinceTurn {d : ι} {log mid : List ρ} {first : ρ}
    (h : sinceTurn chosen d log = some (first, mid)) : stamp chosen time log d = time first := by
  induction log using List.reverseRecOn generalizing first mid with
  | nil => simp [sinceTurn] at h
  | append_singleton log r ih =>
    rw [sinceTurn_concat] at h
    rw [stamp_concat]
    split_ifs at h ⊢ with hr
    · rw [(Prod.mk.inj (Option.some.inj h)).1]
    · obtain ⟨⟨first', mid'⟩, hsince, heq⟩ := Option.map_eq_some_iff.mp h
      exact (ih hsince).trans (congrArg time (Prod.mk.inj heq).1)

theorem stamp_cases (log : List ρ) (e : ι) :
    stamp chosen time log e = 0 ∨
      ∃ r ∈ log, chosen r = some e ∧ stamp chosen time log e = time r := by
  induction log using List.reverseRecOn with
  | nil => exact .inl rfl
  | append_singleton log r ih =>
    rw [stamp_concat]
    split_ifs with hr
    · exact .inr ⟨r, by simp, hr, rfl⟩
    · rcases ih with hzero | ⟨r', hr', hchosen, heq⟩
      · exact .inl hzero
      · exact .inr ⟨r', List.mem_append_left _ hr', hchosen, heq⟩

/-- Without a turn since the last one of `d`, the stamp is older than that. -/
theorem stamp_lt {log mid : List ρ} {first : ρ} {d e : ι} (hticks : Ticks chosen time log)
    (hpos : 0 < time first) (hsince : sinceTurn chosen d log = some (first, mid)) (hne : e ≠ d)
    (hmid : ∀ r ∈ mid, chosen r ≠ some e) : stamp chosen time log e < time first := by
  obtain ⟨⟨before, rfl⟩, hfirst, -⟩ := sinceTurn_eq_some.mp hsince
  have hcases : stamp chosen time (before ++ first :: mid) e = 0 ∨ _ :=
    stamp_cases (before ++ first :: mid) e
  rcases hcases with hzero | ⟨r, hr, hchosen, heq⟩
  · rwa [hzero]
  · rw [heq]
    rcases List.mem_append.mp hr with hr | hr
    · rw [Ticks, List.filter_append] at hticks
      refine (List.pairwise_append.mp hticks).2.2 r ?_ first ?_
      · exact List.mem_filter.mpr ⟨hr, by rw [hchosen, Option.isSome_some]⟩
      · exact List.mem_filter.mpr ⟨List.mem_cons_self .., by rw [hfirst, Option.isSome_some]⟩
    · rcases List.mem_cons.mp hr with rfl | hr
      · exact absurd (Option.some.inj (hchosen.symm.trans hfirst)) hne
      · exact absurd hchosen (hmid r hr)

/-- To choose whoever had no turn for longest, among those that are eligible, is fair. -/
theorem fair_of_stamp_le {log : List ρ} {last : ρ} (hticks : Ticks chosen time log)
    (hpos : ∀ r ∈ log, (chosen r).isSome = true → 0 < time r)
    (hle : ∀ d e, chosen last = some d → eligible last e d →
      stamp chosen time log d ≤ stamp chosen time log e) :
    Fair chosen eligible log last := by
  intro d first mid e hlast hsince hne _ helig
  by_contra hnone
  obtain ⟨⟨before, hlog⟩, hfirst, -⟩ := sinceTurn_eq_some.mp hsince
  have hfirstpos : 0 < time first :=
    hpos first (by simp [hlog]) (by rw [hfirst, Option.isSome_some])
  have hold := stamp_lt hticks hfirstpos hsince hne fun r hr hchosen => hnone ⟨r, hr, hchosen⟩
  have hstamp : stamp chosen time log d = time first := stamp_of_sinceTurn hsince
  exact absurd (hle d e hlast helig) (by omega)

end Turns
