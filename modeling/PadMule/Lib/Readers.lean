import Mathlib.Tactic

/-
  Readers that consume a prefix of a token list, and the relation saying which prefix.

  `Reads m bs a`: the reader `m` consumes exactly `bs` and returns `a`, whatever
  follows. A writer inverts a reader when `Reads m (write a) a`; `Reads.bind` and
  `Reads.many` compose such facts along the reader's own text.
-/

namespace Readers

/-- A reader over tokens `τ`: the remaining input is its state. -/
abbrev Reader (ε τ α : Type) := StateT (List τ) (Except ε) α

variable {ε τ α β : Type}

def Reads (m : Reader ε τ α) (bs : List τ) (a : α) : Prop :=
  ∀ rest, m (bs ++ rest) = .ok (a, rest)

theorem Reads.pure (a : α) : Reads (pure a : Reader ε τ α) [] a := fun _ => rfl

theorem Reads.bind {m : Reader ε τ α} {f : α → Reader ε τ β} {bs cs : List τ} {a : α} {b : β}
    (h : Reads m bs a) (hf : Reads (f a) cs b) : Reads (m >>= f) (bs ++ cs) b := by
  intro rest
  show (m (bs ++ cs ++ rest) >>= fun p => f p.1 p.2) = _
  rw [List.append_assoc, h]
  exact hf rest

/-- The last step of a reader: map the value just read. -/
theorem Reads.bind_pure {m : Reader ε τ α} {f : α → β} {bs : List τ} {a : α}
    (h : Reads m bs a) : Reads (m >>= fun x => Pure.pure (f x)) bs (f a) := by
  have hf : Reads (Pure.pure (f a) : Reader ε τ β) [] (f a) := Reads.pure (f a)
  have := Reads.bind (f := fun x => Pure.pure (f x)) h hf
  rwa [List.append_nil] at this

theorem Reads.run_nil {m : Reader ε τ α} {bs : List τ} {a : α} (h : Reads m bs a) :
    m bs = .ok (a, []) := by
  simpa using h []

/-- Read `n` items one after the other. -/
def readMany (m : Reader ε τ α) : Nat → Reader ε τ (List α)
  | 0 => pure []
  | n + 1 => do
    let a ← m
    let as ← readMany m n
    return a :: as

/-- Items written one after the other; `f` is what each reads back as. -/
theorem Reads.many_map {m : Reader ε τ β} {write : α → List τ} {f : α → β} {as : List α}
    (h : ∀ a ∈ as, Reads m (write a) (f a)) :
    Reads (readMany m as.length) (as.flatMap write) (as.map f) := by
  induction as with
  | nil => exact Reads.pure []
  | cons a as ih =>
    obtain ⟨ha, has⟩ := List.forall_mem_cons.mp h
    rw [List.flatMap_cons, List.length_cons, List.map_cons, readMany]
    exact ha.bind (ih has).bind_pure

theorem Reads.many {m : Reader ε τ α} {write : α → List τ} {as : List α}
    (h : ∀ a ∈ as, Reads m (write a) a) :
    Reads (readMany m as.length) (as.flatMap write) as := by
  have := Reads.many_map (f := id) h
  rwa [List.map_id] at this

theorem bind_ok {m : Reader ε τ α} {f : α → Reader ε τ β} {s s' : List τ} {a : α}
    (h : m s = .ok (a, s')) : (m >>= f) s = f a s' := by
  change (m s >>= fun p => f p.1 p.2) = _
  rw [h]
  rfl

theorem bind_error {m : Reader ε τ α} {f : α → Reader ε τ β} {s : List τ} {e : ε}
    (h : m s = .error e) : (m >>= f) s = .error e := by
  change (m s >>= fun p => f p.1 p.2) = _
  rw [h]
  rfl

theorem ok_bind {m : Reader ε τ α} {f : α → Reader ε τ β} {s : List τ} {r : β × List τ}
    (h : (m >>= f) s = .ok r) : ∃ a s', m s = .ok (a, s') ∧ f a s' = .ok r := by
  change (m s >>= fun p => f p.1 p.2) = _ at h
  cases hm : m s with
  | error e => rw [hm] at h; cases h
  | ok p => rw [hm] at h; exact ⟨p.1, p.2, rfl, h⟩

/-- A reader run for its value only. -/
theorem ok_map_fst {r : Except ε (α × List τ)} {a : α} (h : r.map Prod.fst = .ok a) :
    ∃ s, r = .ok (a, s) := by
  cases r with
  | error e => cases h
  | ok p =>
    cases h
    exact ⟨p.2, rfl⟩

/-- A choice of readers that succeeds is one of them. -/
theorem ok_ite {c : Prop} [Decidable c] {m k : Reader ε τ α} {s : List τ} {r : α × List τ}
    (h : (if c then m else k) s = .ok r) : m s = .ok r ∨ k s = .ok r := by
  by_cases hc : c
  · rw [if_pos hc] at h
    exact .inl h
  · rw [if_neg hc] at h
    exact .inr h

/-! ## Readers that take a fixed number of tokens -/

def Takes (m : Reader ε τ α) (n : Nat) : Prop :=
  ∀ s a s', m s = .ok (a, s') → s.length = n + s'.length

theorem Takes.pure (a : α) : Takes (Pure.pure a : Reader ε τ α) 0 := by
  intro s b s' h
  cases h
  exact (Nat.zero_add _).symm

theorem Takes.bind {m : Reader ε τ α} {f : α → Reader ε τ β} {k n : Nat} (h : Takes m k)
    (hf : ∀ a, Takes (f a) n) : Takes (m >>= f) (k + n) := by
  intro s b s'' hrun
  obtain ⟨a, s', hm, hrun⟩ := ok_bind hrun
  have hfirst := h s a s' hm
  have hrest := hf a s' b s'' hrun
  omega

theorem Takes.bind_pure {m : Reader ε τ α} {f : α → β} {k : Nat} (h : Takes m k) :
    Takes (m >>= fun a => Pure.pure (f a)) k := h.bind fun a => .pure (f a)

theorem Takes.many {m : Reader ε τ α} {k : Nat} (h : Takes m k) (n : Nat) :
    Takes (readMany m n) (n * k) := by
  induction n with
  | zero =>
    rw [Nat.zero_mul]
    exact .pure []
  | succ n ih =>
    rw [Nat.succ_mul, Nat.add_comm (n * k)]
    exact h.bind fun a => ih.bind_pure

theorem length_of_readMany {m : Reader ε τ α} {n : Nat} {s s' : List τ} {as : List α}
    (h : readMany m n s = .ok (as, s')) : as.length = n := by
  induction n generalizing s s' as with
  | zero => cases h; rfl
  | succ n ih =>
    obtain ⟨a, s₁, -, h⟩ := ok_bind h
    obtain ⟨as', s₂, has, h⟩ := ok_bind h
    cases h
    rw [List.length_cons, ih has]

/-- What holds of every item that can be read holds of all that were. -/
theorem forall_of_readMany {m : Reader ε τ α} {p : α → Prop}
    (hp : ∀ s a s', m s = .ok (a, s') → p a) {n : Nat} {s s' : List τ} {as : List α}
    (h : readMany m n s = .ok (as, s')) : ∀ a ∈ as, p a := by
  induction n generalizing s s' as with
  | zero =>
    cases h
    exact fun _ ha => absurd ha List.not_mem_nil
  | succ n ih =>
    obtain ⟨a, s₁, ha, h⟩ := ok_bind h
    obtain ⟨as', s₂, has, h⟩ := ok_bind h
    cases h
    exact List.forall_mem_cons.mpr ⟨hp s a s₁ ha, ih has⟩

end Readers
