import Mathlib.Data.List.Basic

/-
  A stream that arrives in chunks.

  `Cuts chunks stream` says that the chunks are the stream cut anywhere. Reading an exact number of
  items takes them off the front whatever the cuts are, over many chunks or out of the middle of
  one, and leaves cuts of the rest (`Cuts.readExact`). A reader that is made of such reads is
  `Steady`: what comes behind them does not change what they give.
-/

namespace Chunks

variable {α : Type*}

/-- Chunks that have something in them, the stream behind each other. -/
structure Cuts (chunks : List (List α)) (stream : List α) : Prop where
  flatten : chunks.flatten = stream
  ne : ∀ chunk ∈ chunks, chunk ≠ []

/-- The next `n` items and the chunks that are left. `none` where the stream ends before. -/
def readExact : List (List α) → Nat → Option (List α × List (List α))
  | chunks, 0 => some ([], chunks)
  | [], _ + 1 => none
  | chunk :: chunks, n + 1 =>
    if chunk.isEmpty then none
    else if n + 1 < chunk.length then some (chunk.take (n + 1), chunk.drop (n + 1) :: chunks)
    else (readExact chunks (n + 1 - chunk.length)).map fun read => (chunk ++ read.1, read.2)

theorem Cuts.nil : Cuts ([] : List (List α)) [] := ⟨rfl, fun _ h => absurd h List.not_mem_nil⟩

theorem Cuts.cons {chunk : List α} {chunks : List (List α)} {stream : List α}
    (h : Cuts (chunk :: chunks) stream) :
    ∃ rest, stream = chunk ++ rest ∧ chunk ≠ [] ∧ Cuts chunks rest := by
  obtain ⟨hhead, hrest⟩ := List.forall_mem_cons.mp h.ne
  exact ⟨chunks.flatten, h.flatten.symm, hhead, rfl, hrest⟩

theorem Cuts.push {chunk : List α} {chunks : List (List α)} {stream : List α}
    (h : Cuts chunks stream) (hne : chunk ≠ []) : Cuts (chunk :: chunks) (chunk ++ stream) :=
  ⟨by rw [List.flatten_cons, h.flatten], List.forall_mem_cons.mpr ⟨hne, h.ne⟩⟩

theorem Cuts.readExact {chunks : List (List α)} {front rest : List α}
    (h : Cuts chunks (front ++ rest)) :
    ∃ left, readExact chunks front.length = some (front, left) ∧ Cuts left rest := by
  induction chunks generalizing front with
  | nil =>
    obtain ⟨rfl, rfl⟩ := List.append_eq_nil_iff.mp h.flatten.symm
    exact ⟨[], rfl, .nil⟩
  | cons chunk chunks ih =>
    cases front with
    | nil => exact ⟨chunk :: chunks, rfl, h⟩
    | cons a front =>
      obtain ⟨tail, hsplit, hne, hchunks⟩ := h.cons
      rw [List.length_cons, Chunks.readExact, if_neg (by simpa using hne)]
      rw [← List.length_cons (a := a)]
      generalize a :: front = front at hsplit ⊢
      split_ifs with hlt
      · -- the chunk goes on behind what is read
        have htake : front = chunk.take front.length := by
          have htake := congrArg (List.take front.length) hsplit
          rwa [List.take_left, List.take_append_of_le_length (Nat.le_of_lt hlt)] at htake
        have hrest : rest = chunk.drop front.length ++ tail := by
          have hdrop := congrArg (List.drop front.length) hsplit
          rwa [List.drop_left, List.drop_append_of_le_length (Nat.le_of_lt hlt)] at hdrop
        refine ⟨chunk.drop front.length :: chunks, ?_, ?_⟩
        · rw [← htake]
        · rw [hrest]
          refine hchunks.push fun hnil => ?_
          have hlen := List.drop_eq_nil_iff.mp hnil
          omega
      · -- the chunk is read whole
        obtain ⟨more, rfl⟩ : ∃ more, front = chunk ++ more := by
          obtain ⟨more, hmore, -⟩ | ⟨more, hmore, -⟩ := List.append_eq_append_iff.mp hsplit
          · refine ⟨[], ?_⟩
            have hlen := congrArg List.length hmore
            rw [List.length_append] at hlen
            have hnil : more = [] := List.eq_nil_of_length_eq_zero (by omega)
            rw [hmore, hnil, List.append_nil, List.append_nil]
          · exact ⟨more, hmore⟩
        rw [List.append_assoc] at hsplit
        rw [← List.append_cancel_left hsplit] at hchunks
        obtain ⟨left, hread, hleft⟩ := ih hchunks
        refine ⟨left, ?_, hleft⟩
        rw [List.length_append, Nat.add_sub_cancel_left, hread]
        rfl

/-- A stream that ends before the last item is told from one that goes on. -/
theorem Cuts.readExact_short {chunks : List (List α)} {stream : List α} (h : Cuts chunks stream)
    {n : Nat} (hn : stream.length < n) : Chunks.readExact chunks n = none := by
  induction chunks generalizing stream n with
  | nil =>
    obtain ⟨n, rfl⟩ : ∃ k, n = k + 1 := ⟨n - 1, by omega⟩
    rfl
  | cons chunk chunks ih =>
    obtain ⟨rest, rfl, hne, hrest⟩ := h.cons
    obtain ⟨n, rfl⟩ : ∃ k, n = k + 1 := ⟨n - 1, by omega⟩
    rw [List.length_append] at hn
    rw [Chunks.readExact, if_neg (by simpa using hne), if_neg (by omega), ih hrest (by omega)]
    rfl

/-! ## Reading before all is there -/

section

variable {ε β γ : Type*} {short : ε}

/-- A read that does not depend on what is behind it: what it makes of a stream it makes of every
    longer one, unless it is `short` of more. -/
structure Steady (short : ε) (m : List (List α) → Except ε (β × List (List α))) : Prop where
  ok : ∀ {chunks chunks' : List (List α)} {stream more : List α}, Cuts chunks stream →
    Cuts chunks' (stream ++ more) → ∀ {b left}, m chunks = .ok (b, left) →
      ∃ left' rest, m chunks' = .ok (b, left') ∧ rest <:+ stream ∧ Cuts left rest ∧
        Cuts left' (rest ++ more)
  error : ∀ {chunks chunks' : List (List α)} {stream more : List α}, Cuts chunks stream →
    Cuts chunks' (stream ++ more) → ∀ {e}, m chunks = .error e → e = short ∨ m chunks' = .error e

theorem Steady.pure (b : β) : Steady short fun chunks : List (List α) => Except.ok (b, chunks) where
  ok h h' b' left heq := by
    cases heq
    exact ⟨_, _, rfl, List.suffix_rfl, h, h'⟩
  error _ _ e heq := by cases heq

theorem Steady.fail (e : ε) :
    Steady short fun _ : List (List α) => (Except.error e : Except ε (β × List (List α))) where
  ok _ _ b left heq := by cases heq
  error _ _ e' heq := .inr heq

theorem Steady.bind {m : List (List α) → Except ε (β × List (List α))}
    {f : β → List (List α) → Except ε (γ × List (List α))} (hm : Steady short m)
    (hf : ∀ b, Steady short (f b)) :
    Steady short fun chunks => (m chunks).bind fun read => f read.1 read.2 where
  ok {chunks chunks' stream more} h h' c left heq := by
    obtain ⟨read, hread, hrest⟩ :
        ∃ read, m chunks = .ok read ∧ f read.1 read.2 = .ok (c, left) := by
      cases hread : m chunks with
      | error e => rw [hread] at heq; cases heq
      | ok read => rw [hread] at heq; exact ⟨read, rfl, heq⟩
    obtain ⟨left', rest, hread', hsuffix, hleft, hleft'⟩ := hm.ok h h' hread
    obtain ⟨left'', rest', hnext, hsuffix', hcuts⟩ := (hf read.1).ok hleft hleft' hrest
    rw [hread']
    exact ⟨left'', rest', hnext, hsuffix'.trans hsuffix, hcuts⟩
  error {chunks chunks' stream more} h h' e heq := by
    cases hread : m chunks with
    | error e' =>
      rw [hread] at heq
      cases heq
      exact (hm.error h h' hread).imp_right fun hread' => by rw [hread']; rfl
    | ok read =>
      rw [hread] at heq
      obtain ⟨left', rest, hread', -, hleft, hleft'⟩ := hm.ok h h' hread
      rw [hread']
      exact (hf read.1).error hleft hleft' heq

theorem Steady.congr {m m' : List (List α) → Except ε (β × List (List α))} (h : Steady short m)
    (heq : ∀ chunks, m' chunks = m chunks) : Steady short m' :=
  funext heq ▸ h

theorem Steady.ite {c : Prop} [Decidable c] {m m' : List (List α) → Except ε (β × List (List α))}
    (h : Steady short m) (h' : Steady short m') :
    Steady short fun chunks => if c then m chunks else m' chunks := by
  split_ifs
  · exact h
  · exact h'

end

end Chunks
