import Mathlib.Data.List.Basic
import Mathlib.Tactic

/-
  Runs of a partial step function.

  `run` is the state a list of actions leads to. `Always p` says that `p` holds in every
  state on the way, `Throughout ok` that `ok` holds of every step in the state it is taken
  from. `always_iff_throughout` is the rule for exact conditions: where a step from a good
  state leads to a good state exactly when `ok` holds of it, a run stays good exactly when
  `ok` holds throughout.
-/

namespace Runs

variable {σ α : Type*} {step : σ → α → Option σ} {s s' : σ}

def run (step : σ → α → Option σ) : σ → List α → Option σ
  | s, [] => some s
  | s, a :: as => (step s a).bind fun s' => run step s' as

/-- `p` holds in every state the run reaches. -/
def Always (step : σ → α → Option σ) (p : σ → Prop) : σ → List α → Prop
  | s, [] => p s
  | s, a :: as => p s ∧ ∀ s', step s a = some s' → Always step p s' as

/-- `ok` holds of every step, in the state it meets. -/
def Throughout (step : σ → α → Option σ) (ok : σ → α → Prop) : σ → List α → Prop
  | _, [] => True
  | s, a :: as => ok s a ∧ ∀ s', step s a = some s' → Throughout step ok s' as

theorem run_cons {a : α} {as : List α} (h : run step s (a :: as) = some s') :
    ∃ t, step s a = some t ∧ run step t as = some s' :=
  Option.bind_eq_some_iff.mp h

/-- What every step keeps, a run keeps. -/
theorem run_induct {inv : σ → Prop} (hstep : ∀ s a s', inv s → step s a = some s' → inv s')
    (hs : inv s) {as : List α} (hrun : run step s as = some s') : inv s' := by
  induction as generalizing s with
  | nil => exact Option.some.inj hrun ▸ hs
  | cons a as ih =>
    obtain ⟨t, ht, hrun⟩ := run_cons hrun
    exact ih (hstep s a t hs ht) hrun

/-- Where every step makes a measure smaller, a run has no more steps than it is at the start. -/
theorem run_descends {inv : σ → Prop} {ok : α → Prop} {left : σ → Nat}
    (hstep : ∀ s a s', inv s → ok a → step s a = some s' → inv s' ∧ left s' < left s)
    (hs : inv s) {as : List α} (hok : ∀ a ∈ as, ok a) (hrun : run step s as = some s') :
    inv s' ∧ as.length + left s' ≤ left s := by
  induction as generalizing s with
  | nil =>
    obtain rfl := Option.some.inj hrun
    exact ⟨hs, by simp⟩
  | cons a as ih =>
    obtain ⟨t, ht, hrun⟩ := run_cons hrun
    obtain ⟨ha, has⟩ := List.forall_mem_cons.mp hok
    obtain ⟨hinv, hlt⟩ := hstep s a t hs ha ht
    obtain ⟨hinv', hle⟩ := ih hinv has hrun
    exact ⟨hinv', by rw [List.length_cons]; omega⟩

/-- Where `ok` steps keep `inv`, a run of `ok` steps always has it. -/
theorem always_of_throughout {inv p : σ → Prop} {ok : σ → α → Prop}
    (hstep : ∀ s a s', inv s → ok s a → step s a = some s' → inv s') (hp : ∀ s, inv s → p s)
    (hs : inv s) {as : List α} (hok : Throughout step ok s as) : Always step p s as := by
  induction as generalizing s with
  | nil => exact hp s hs
  | cons a as ih => exact ⟨hp s hs, fun t ht => ih (hstep s a t hs hok.1 ht) (hok.2 t ht)⟩

/-- What every step keeps always holds. -/
theorem always_induct {inv p : σ → Prop} (hstep : ∀ s a s', inv s → step s a = some s' → inv s')
    (hp : ∀ s, inv s → p s) (hs : inv s) (as : List α) : Always step p s as := by
  induction as generalizing s with
  | nil => exact hp s hs
  | cons a as ih => exact ⟨hp s hs, fun t ht => ih (hstep s a t hs ht)⟩

/-- Where `ok` steps keep `inv` and are `ok'` under it, a run of `ok` steps is `ok'` throughout. -/
theorem Throughout.imp {inv : σ → Prop} {ok ok' : σ → α → Prop}
    (hstep : ∀ s a s', inv s → ok s a → step s a = some s' → inv s')
    (himp : ∀ s a, inv s → ok s a → ok' s a) (hs : inv s) {as : List α}
    (hok : Throughout step ok s as) : Throughout step ok' s as := by
  induction as generalizing s with
  | nil => trivial
  | cons a as ih =>
    exact ⟨himp s a hs hok.1, fun t ht => ih (hstep s a t hs hok.1 ht) (hok.2 t ht)⟩

theorem Throughout.mono {ok ok' : σ → α → Prop} (himp : ∀ s a, ok s a → ok' s a) {as : List α}
    (hok : Throughout step ok s as) : Throughout step ok' s as := by
  have hany : ∀ s a s', True → ok s a → step s a = some s' → True := fun _ _ _ _ _ _ => trivial
  exact hok.imp hany (fun s a _ => himp s a) trivial

/-- What holds throughout a run holds of the step behind any part of it. -/
theorem Throughout.after {ok : σ → α → Prop} {as : List α} {a : α}
    (h : Throughout step ok s (as ++ [a])) (hrun : run step s as = some s') : ok s' a := by
  induction as generalizing s with
  | nil => exact Option.some.inj hrun ▸ h.1
  | cons b as ih =>
    obtain ⟨t, ht, hrun⟩ := run_cons hrun
    exact ih (h.2 t ht) hrun

instance decidableThroughout {ok : σ → α → Prop} [∀ s a, Decidable (ok s a)] :
    ∀ s as, Decidable (Throughout step ok s as)
  | _, [] => .isTrue trivial
  | s, a :: as =>
    match hstep : step s a with
    | none => decidable_of_iff (ok s a)
        ⟨fun hok => ⟨hok, fun s' hs' => absurd (hstep.symm.trans hs') (by simp)⟩, fun h => h.1⟩
    | some s' =>
      have : Decidable (Throughout step ok s' as) := decidableThroughout s' as
      decidable_of_iff (ok s a ∧ Throughout step ok s' as)
        ⟨fun h => ⟨h.1, fun t ht => Option.some.inj (hstep.symm.trans ht) ▸ h.2⟩,
          fun h => ⟨h.1, h.2 s' hstep⟩⟩

theorem Always.start {p : σ → Prop} {as : List α} (h : Always step p s as) : p s := by
  cases as with
  | nil => exact h
  | cons a as => exact h.1

/-- A run that is good throughout leads to a good state. -/
theorem Always.run {p : σ → Prop} {as : List α} (h : Always step p s as)
    (hrun : run step s as = some s') : p s' := by
  induction as generalizing s with
  | nil => exact Option.some.inj hrun ▸ h
  | cons a as ih =>
    obtain ⟨t, ht, hrun⟩ := run_cons hrun
    exact ih (h.2 t ht) hrun

/-- `inv` always holds; `good` is kept exactly by the steps that are `ok`. -/
theorem always_iff_throughout {inv good : σ → Prop} {ok : σ → α → Prop}
    (hinv : ∀ s a s', inv s → step s a = some s' → inv s')
    (hok : ∀ s a, step s a = none → ok s a)
    (hgood : ∀ s a s', inv s → good s → step s a = some s' → (good s' ↔ ok s a))
    (hi : inv s) (hg : good s) (as : List α) :
    Always step good s as ↔ Throughout step ok s as := by
  induction as generalizing s with
  | nil => exact iff_of_true hg trivial
  | cons a as ih =>
    cases hs : step s a with
    | none =>
      refine iff_of_true ⟨hg, fun t ht => ?_⟩ ⟨hok s a hs, fun t ht => ?_⟩ <;>
        exact absurd (hs ▸ ht) (by simp)
    | some t =>
      have hiff := hgood s a t hi hg hs
      have hi' := hinv s a t hi hs
      constructor
      · intro h
        have hrest := h.2 t hs
        refine ⟨hiff.mp hrest.start, fun u hu => ?_⟩
        cases hs ▸ hu
        exact (ih hi' hrest.start).mp hrest
      · intro h
        have hg' := hiff.mpr h.1
        refine ⟨hg, fun u hu => ?_⟩
        cases hs ▸ hu
        exact (ih hi' hg').mpr (h.2 t hs)

/-- `inv` always holds; a step leads to a good state exactly from a good state and when it is
    `ok`. -/
theorem run_iff_throughout {inv good : σ → Prop} {ok : σ → α → Prop}
    (hinv : ∀ s a s', inv s → step s a = some s' → inv s')
    (hgood : ∀ s a s', inv s → step s a = some s' → (good s' ↔ good s ∧ ok s a))
    (hi : inv s) {as : List α} (hrun : run step s as = some s') :
    good s' ↔ good s ∧ Throughout step ok s as := by
  induction as generalizing s with
  | nil =>
    obtain rfl := Option.some.inj hrun
    exact (and_iff_left trivial).symm
  | cons a as ih =>
    obtain ⟨t, ht, hrun⟩ := run_cons hrun
    rw [ih (hinv s a t hi ht) hrun, hgood s a t hi ht, and_assoc]
    refine and_congr_right fun _ => and_congr_right fun _ => ⟨fun h u hu => ?_, fun h => h t ht⟩
    obtain rfl := Option.some.inj (ht.symm.trans hu)
    exact h

end Runs
