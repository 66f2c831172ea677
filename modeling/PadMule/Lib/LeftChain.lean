import Mathlib.Tactic

/-
  Recursive descent for left-associative operators.

  A `Parser` takes tokens off the front, at least one if there is any, so that a loop over parsers
  ends. `chainl op sub mk` is operands of `sub` with the operator `op` between them, put together
  from the left. An operator is told by where the next operand starts, which may be at the token in
  front (adjacency). What is parsed so far is the left operand of what follows (`parse_chainl`,
  `loop_next`), which is how a left-recursive grammar is followed by a loop.
-/

namespace LeftChain

variable {τ ε : Type*}

structure Parser (τ ε : Type*) where
  parse : List τ → Option ε × List τ
  shrinks : ∀ toks, (parse toks).2.length ≤ toks.length - 1

structure Operator (τ : Type*) where
  /-- Where the operand behind the operator starts, if the operator is there. -/
  next : List τ → Option (List τ)
  behind : ∀ toks rest, next toks = some rest → toks ≠ [] ∧ rest.length ≤ toks.length

variable (op : Operator τ) (sub : Parser τ ε) (mk : ε → ε → ε)

theorem length_lt {toks rest : List τ} (h : op.next toks = some rest) :
    (sub.parse rest).2.length < toks.length := by
  obtain ⟨hne, hle⟩ := op.behind toks rest h
  have hshrinks := sub.shrinks rest
  have hpos := List.length_pos_iff.mpr hne
  omega

/-- An operator without an operand behind it is dropped. -/
def loop (left : ε) (toks : List τ) : ε × List τ :=
  match h : op.next toks with
  | none => (left, toks)
  | some rest =>
    match h' : sub.parse rest with
    | (none, toks') => (left, toks')
    | (some right, toks') =>
      have : toks'.length < toks.length := by
        have hlt := length_lt op sub h
        rwa [h'] at hlt
      loop (mk left right) toks'
termination_by toks.length

variable {op sub mk}

theorem loop_stop {left : ε} {toks : List τ} (h : op.next toks = none) :
    loop op sub mk left toks = (left, toks) := by
  rw [loop]
  split
  · rfl
  · next hsome => cases h.symm.trans hsome

theorem loop_next {left right : ε} {toks rest toks' : List τ} (h : op.next toks = some rest)
    (h' : sub.parse rest = (some right, toks')) :
    loop op sub mk left toks = loop op sub mk (mk left right) toks' := by
  rw [loop]
  split
  · next hnone => cases h.symm.trans hnone
  · next rest₁ hsome =>
    cases h.symm.trans hsome
    split
    · next hnone => cases h'.symm.trans hnone
    · next right₁ toks₁ hsome' =>
      cases h'.symm.trans hsome'
      rfl

theorem loop_drop {left : ε} {toks rest toks' : List τ} (h : op.next toks = some rest)
    (h' : sub.parse rest = (none, toks')) : loop op sub mk left toks = (left, toks') := by
  rw [loop]
  split
  · next hnone => cases h.symm.trans hnone
  · next rest₁ hsome =>
    cases h.symm.trans hsome
    split
    · next hparse =>
      cases h'.symm.trans hparse
      rfl
    · next hparse => cases h'.symm.trans hparse

theorem length_loop (left : ε) (toks : List τ) :
    (loop op sub mk left toks).2.length ≤ toks.length := by
  induction left, toks using loop.induct op sub mk with
  | case1 left toks hnone =>
    rw [loop_stop hnone]
  | case2 left toks rest hsome toks' hparse =>
    have hlt := length_lt op sub hsome
    rw [hparse] at hlt
    rw [loop_drop hsome hparse]
    exact hlt.le
  | case3 left toks rest hsome right toks' hparse hlt ih =>
    rw [loop_next hsome hparse]
    exact ih.trans hlt.le

variable (op sub mk) in
def chainl : Parser τ ε where
  parse toks :=
    match sub.parse toks with
    | (none, rest) => (none, rest)
    | (some left, rest) => (some (loop op sub mk left rest).1, (loop op sub mk left rest).2)
  shrinks toks := by
    have hsub := sub.shrinks toks
    split
    · next hparse =>
      rw [hparse] at hsub
      exact hsub
    · next left rest hparse =>
      rw [hparse] at hsub
      exact (length_loop left rest).trans hsub

/-- The first operand is what is parsed so far. -/
theorem parse_chainl {toks rest : List τ} {left : ε} (h : sub.parse toks = (some left, rest)) :
    (chainl op sub mk).parse toks =
      (some (loop op sub mk left rest).1, (loop op sub mk left rest).2) := by
  rw [chainl]
  simp only [h]

/-! ## Where a chain stops -/

/-- From tokens that are `expect` an operand leads to tokens that are `behind`, and is missing
    only at their end. -/
def Follows (p : Parser τ ε) (expect behind : List τ → Prop) : Prop :=
  ∀ toks, expect toks →
    behind (p.parse toks).2 ∧ ((p.parse toks).1 = none → (p.parse toks).2 = [])

theorem Operator.next_nil (op : Operator τ) : op.next [] = none := by
  cases hnext : op.next [] with
  | none => rfl
  | some rest => exact absurd rfl (op.behind [] rest hnext).1

theorem Follows.loop {expect behind : List τ → Prop} (h : Follows sub expect behind)
    (hop : ∀ toks rest, op.next toks = some rest → behind toks → expect rest) (left : ε)
    {toks : List τ} (hbehind : behind toks) :
    behind (loop op sub mk left toks).2 ∧ op.next (loop op sub mk left toks).2 = none := by
  induction left, toks using loop.induct op sub mk with
  | case1 left toks hnone =>
    rw [loop_stop hnone]
    exact ⟨hbehind, hnone⟩
  | case2 left toks rest hsome toks' hparse =>
    obtain ⟨hend, hmissing⟩ := h rest (hop toks rest hsome hbehind)
    rw [hparse] at hend hmissing
    rw [loop_drop hsome hparse]
    refine ⟨hend, ?_⟩
    rw [hmissing rfl]
    exact op.next_nil
  | case3 left toks rest hsome right toks' hparse hlt ih =>
    have hoperand := (h rest (hop toks rest hsome hbehind)).1
    rw [hparse] at hoperand
    rw [loop_next hsome hparse]
    exact ih hoperand

/-- A chain stops behind an operand where its operator is not. -/
theorem Follows.chainl {expect behind : List τ → Prop} (h : Follows sub expect behind)
    (hop : ∀ toks rest, op.next toks = some rest → behind toks → expect rest) :
    Follows (chainl op sub mk) expect fun rest => behind rest ∧ op.next rest = none := by
  intro toks hexpect
  obtain ⟨hbehind, hmissing⟩ := h toks hexpect
  rw [LeftChain.chainl]
  dsimp only
  cases hparse : sub.parse toks with
  | mk operand rest =>
    rw [hparse] at hbehind hmissing
    cases operand with
    | none =>
      obtain rfl := hmissing rfl
      exact ⟨⟨hbehind, op.next_nil⟩, fun _ => rfl⟩
    | some left => exact ⟨h.loop hop left hbehind, nofun⟩

/-! ## What a chain keeps of its tokens -/

section

variable {ω : Type*} {word : τ → Option ω} {leaves : ε → List ω}

/-- The words of the tokens taken are the leaves of the tree; without a tree there are none. -/
def Yields (p : Parser τ ε) (word : τ → Option ω) (leaves : ε → List ω) : Prop :=
  ∀ toks, ∃ used, toks = used ++ (p.parse toks).2 ∧
    used.filterMap word = ((p.parse toks).1.map leaves).getD []

theorem Yields.loop (h : Yields sub word leaves)
    (hop : ∀ toks rest, op.next toks = some rest → ∃ pre, toks = pre ++ rest ∧
      pre.filterMap word = [])
    (hmk : ∀ l r, leaves (mk l r) = leaves l ++ leaves r) (left : ε) (toks : List τ) :
    ∃ used, toks = used ++ (loop op sub mk left toks).2 ∧
      leaves (loop op sub mk left toks).1 = leaves left ++ used.filterMap word := by
  induction left, toks using loop.induct op sub mk with
  | case1 left toks hnone =>
    rw [loop_stop hnone]
    exact ⟨[], rfl, (List.append_nil _).symm⟩
  | case2 left toks rest hsome toks' hparse =>
    obtain ⟨pre, rfl, hpre⟩ := hop toks rest hsome
    obtain ⟨used, hused, hwords⟩ := h rest
    rw [hparse] at hused hwords
    rw [loop_drop hsome hparse]
    refine ⟨pre ++ used, by rw [hused, List.append_assoc], ?_⟩
    rw [List.filterMap_append, hpre, hwords]
    exact (List.append_nil _).symm
  | case3 left toks rest hsome right toks' hparse hlt ih =>
    obtain ⟨pre, rfl, hpre⟩ := hop toks rest hsome
    obtain ⟨used, hused, hwords⟩ := h rest
    rw [hparse] at hused hwords
    obtain ⟨more, hmore, hleaves⟩ := ih
    rw [loop_next hsome hparse]
    refine ⟨pre ++ (used ++ more), ?_, ?_⟩
    · rw [List.append_assoc, List.append_assoc, ← hmore, ← hused]
    · rw [hleaves, hmk, List.filterMap_append, List.filterMap_append, hpre, hwords,
        List.append_assoc]
      rfl

/-- A chain has the words of all its operands when its operator has none. -/
theorem Yields.chainl (h : Yields sub word leaves)
    (hop : ∀ toks rest, op.next toks = some rest → ∃ pre, toks = pre ++ rest ∧
      pre.filterMap word = [])
    (hmk : ∀ l r, leaves (mk l r) = leaves l ++ leaves r) :
    Yields (chainl op sub mk) word leaves := by
  intro toks
  obtain ⟨used, hused, hwords⟩ := h toks
  rw [LeftChain.chainl]
  dsimp only
  cases hparse : sub.parse toks with
  | mk operand rest =>
    rw [hparse] at hused hwords
    cases operand with
    | none => exact ⟨used, hused, hwords⟩
    | some left =>
      obtain ⟨more, hmore, hleaves⟩ := h.loop hop hmk left rest
      refine ⟨used ++ more, ?_, ?_⟩
      · rw [List.append_assoc, ← hmore]
        exact hused
      · rw [List.filterMap_append, hwords]
        exact hleaves.symm

end

end LeftChain
