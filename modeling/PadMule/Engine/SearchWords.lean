import PadMule.Engine.SearchQuery

/-
  `mule-engine/src/search.rs`: the words of a query against the leaves of what it is parsed to.

  The leaves are the words of the tokens the parser took, in order, whatever stray operators and
  parentheses stand between them. What it does not take is behind a `)` that follows an operand
  outside all parentheses: the outermost level stops there, although in front of an operand the
  same token is skipped. `words_kept_iff`: within the cap on nesting no word is lost exactly when
  no word stands behind such a `)`.
-/

namespace PadMule.Engine.SearchQuery

open LeftChain

def QueryExpr.leaves : QueryExpr → List (List Char)
  | .word s => [s]
  | .and l r | .or l r | .not l r => l.leaves ++ r.leaves

def Tok.text : Tok → Option (List Char)
  | .word s => some s
  | _ => none

def words (toks : List Tok) : List (List Char) := toks.filterMap Tok.text

/-- The tokens from the end of a group on, where `behind` says whether an operand is just read,
    `inner` groups are open in it and `n` more may be opened. The group ends with the tokens or at
    a `)` behind an operand; in front of an operand a `)` closes nothing. `none` past the cap. -/
def groupEnd : (n inner : Nat) → (behind : Bool) → List Tok → Option (List Tok)
  | _, _, _, [] => some []
  | n, inner, _, .word _ :: toks => groupEnd n inner true toks
  | n, inner, _, .lparen :: toks =>
    match n with
    | 0 => none
    | n + 1 => groupEnd n (inner + 1) false toks
  | n, inner, true, .rparen :: toks =>
    match inner with
    | 0 => some (.rparen :: toks)
    | inner + 1 => groupEnd (n + 1) inner true toks
  | n, inner, _, _ :: toks => groupEnd n inner false toks

/-- What the parser leaves of a query: what stands from a `)` on that follows an operand outside
    all parentheses. `none` when the nesting passes the cap. -/
def unread (s : List Char) : Option (List Tok) := groupEnd MAX_DEPTH 0 false (tokenize s)

/-! ## The leaves are the words taken -/

theorem yields_primary {inner : Option (Parser Tok QueryExpr)}
    (h : ∀ p, inner = some p → Yields p Tok.text QueryExpr.leaves) :
    Yields (parsePrimary inner) Tok.text QueryExpr.leaves := by
  have hdrop (toks : List Tok) : ∃ pre, toks = pre ++ dropRParen toks ∧ words pre = [] := by
    unfold dropRParen
    split
    · exact ⟨[.rparen], rfl, rfl⟩
    · exact ⟨[], rfl, rfl⟩
  intro toks
  show ∃ used, toks = used ++ (primary inner toks).2 ∧ words used = _
  induction toks with
  | nil => exact ⟨[], rfl, rfl⟩
  | cons t toks ih =>
    have hskip (ht : t.text = none) (heq : primary inner (t :: toks) = primary inner toks) :
        ∃ used, t :: toks = used ++ (primary inner (t :: toks)).2 ∧
          words used = ((primary inner (t :: toks)).1.map QueryExpr.leaves).getD [] := by
      obtain ⟨used, hused, hwords⟩ := ih
      refine ⟨t :: used, ?_, ?_⟩
      · rw [heq, List.cons_append, ← hused]
      · rw [heq, words, List.filterMap_cons_none ht]
        exact hwords
    cases t with
    | word s => exact ⟨[.word s], rfl, rfl⟩
    | lparen =>
      show ∃ used, _ = used ++ (inParens inner toks).2 ∧ _ = ((inParens inner toks).1.map _).getD []
      unfold inParens
      cases inner with
      | none =>
        obtain ⟨pre, hpre, hnone⟩ := hdrop toks
        exact ⟨.lparen :: pre, congrArg _ hpre, hnone⟩
      | some p =>
        obtain ⟨used, hused, hwords⟩ := h p rfl toks
        obtain ⟨pre, hpre, hnone⟩ := hdrop (p.parse toks).2
        refine ⟨.lparen :: (used ++ pre), ?_, ?_⟩
        · rw [List.cons_append, List.append_assoc, ← hpre, ← hused]
        · rw [← hwords]
          show words (used ++ pre) = words used
          rw [words, List.filterMap_append]
          exact (congrArg _ hnone).trans (List.append_nil _)
    | and => exact hskip rfl rfl
    | or => exact hskip rfl rfl
    | not => exact hskip rfl rfl
    | rparen => exact hskip rfl rfl

theorem yields_levels {inner : Option (Parser Tok QueryExpr)}
    (h : ∀ p, inner = some p → Yields p Tok.text QueryExpr.leaves) :
    Yields (LeftChain.chainl andOp (parseOr inner) .and) Tok.text QueryExpr.leaves := by
  have hnot : Yields (parseNot inner) Tok.text QueryExpr.leaves := by
    refine (yields_primary h).chainl (fun toks rest hnext => ?_) fun _ _ => rfl
    change afterNot toks = some rest at hnext
    unfold afterNot at hnext
    split at hnext <;> cases hnext
    exact ⟨[.not], rfl, rfl⟩
  have hor : Yields (parseOr inner) Tok.text QueryExpr.leaves := by
    refine hnot.chainl (fun toks rest hnext => ?_) fun _ _ => rfl
    change afterOr toks = some rest at hnext
    unfold afterOr at hnext
    split at hnext <;> cases hnext
    exact ⟨[.or], rfl, rfl⟩
  refine hor.chainl (fun toks rest hnext => ?_) fun _ _ => rfl
  change afterAnd toks = some rest at hnext
  unfold afterAnd at hnext
  split at hnext <;> cases hnext
  · exact ⟨[.and], rfl, rfl⟩
  · exact ⟨[], rfl, rfl⟩
  · exact ⟨[], rfl, rfl⟩

/-- At any depth the parser's leaves are the words of what it takes. -/
theorem yields_parseAnd (n : Nat) : Yields (parseAnd n) Tok.text QueryExpr.leaves := by
  induction n with
  | zero => exact yields_levels fun p hp => absurd hp nofun
  | succ n ih =>
    refine yields_levels fun p hp => ?_
    cases hp
    exact ih

/-! ## Where the parser stops -/

/-- A group inside another: the outer one goes on behind it. -/
theorem groupEnd_inner (n k inner : Nat) (behind : Bool) (toks : List Tok) :
    groupEnd n (k + (inner + 1)) behind toks = (groupEnd n k behind toks).bind fun rest =>
      match rest with
      | [] => some []
      | _ :: rest => groupEnd (n + k + 1) inner true rest := by
  induction toks generalizing n k behind with
  | nil => rfl
  | cons t toks ih =>
    cases t with
    | word s => exact ih n k true
    | lparen =>
      cases n with
      | zero => rfl
      | succ n =>
        have hinner := ih n (k + 1) false
        have hassoc : k + (inner + 1) + 1 = k + 1 + (inner + 1) := by omega
        have hsame : n + (k + 1) + 1 = n + 1 + k + 1 := by omega
        rw [hsame] at hinner
        rw [groupEnd, hassoc, hinner, groupEnd]
    | rparen =>
      cases behind with
      | false => exact ih n k false
      | true =>
        cases k with
        | zero =>
          rw [Nat.zero_add]
          rfl
        | succ k =>
          have hinner := ih (n + 1) k true
          have hassoc : k + 1 + (inner + 1) = k + (inner + 1) + 1 := by omega
          have hsame : n + 1 + k + 1 = n + (k + 1) + 1 := by omega
          rw [hsame] at hinner
          rw [hassoc, groupEnd, hinner, groupEnd]
    | and => exact ih n k false
    | or => exact ih n k false
    | not => exact ih n k false

/-- A group ends with the tokens or at a `)`. -/
theorem groupEnd_starts {n inner : Nat} {behind : Bool} {toks rest : List Tok}
    (h : groupEnd n inner behind toks = some rest) :
    rest = [] ∨ ∃ rest', rest = .rparen :: rest' := by
  induction toks generalizing n inner behind with
  | nil =>
    cases h
    exact .inl rfl
  | cons t toks ih =>
    cases t with
    | word s => exact ih h
    | lparen =>
      cases n with
      | zero => cases h
      | succ n => exact ih h
    | rparen =>
      cases behind with
      | false => exact ih h
      | true =>
        cases inner with
        | zero =>
          cases h
          exact .inr ⟨toks, rfl⟩
        | succ inner => exact ih h
    | and => exact ih h
    | or => exact ih h
    | not => exact ih h

/-- The parser of a group stops where the group ends; it misses an operand only at the end. -/
def Stops (n : Nat) : Prop :=
  ∀ last, Follows (parseAnd n) (fun toks => groupEnd n 0 false toks = some last) fun rest =>
    rest = last

theorem follows_primary {n : Nat} (h : ∀ m, n = m + 1 → Stops m) (last : List Tok) :
    Follows (parsePrimary (innerOf n)) (fun toks => groupEnd n 0 false toks = some last)
      fun toks => groupEnd n 0 true toks = some last := by
  intro toks hexpect
  show groupEnd n 0 true (primary (innerOf n) toks).2 = some last ∧
    ((primary (innerOf n) toks).1 = none → (primary (innerOf n) toks).2 = [])
  induction toks with
  | nil => exact ⟨hexpect, fun _ => rfl⟩
  | cons t toks ih =>
    cases t with
    | word s => exact ⟨hexpect, nofun⟩
    | lparen =>
      cases n with
      | zero => cases hexpect
      | succ m =>
        have hgroup : groupEnd m (0 + (0 + 1)) false toks = some last := hexpect
        rw [groupEnd_inner] at hgroup
        obtain ⟨rest, hrest, hgoes⟩ := Option.bind_eq_some_iff.mp hgroup
        obtain ⟨hstop, hmissing⟩ := h m rfl rest toks hrest
        show groupEnd (m + 1) 0 true (dropRParen ((parseAnd m).parse toks).2) = some last ∧
          (((parseAnd m).parse toks).1 = none → dropRParen ((parseAnd m).parse toks).2 = [])
        rw [hstop] at hmissing ⊢
        rcases groupEnd_starts hrest with rfl | ⟨rest', rfl⟩
        · exact ⟨hgoes, fun _ => rfl⟩
        · exact ⟨hgoes, fun hnone => absurd (hmissing hnone) (List.cons_ne_nil _ _)⟩
    | and => exact ih hexpect
    | or => exact ih hexpect
    | not => exact ih hexpect
    | rparen => exact ih hexpect

theorem stops_of_inner {n : Nat} (h : ∀ m, n = m + 1 → Stops m) : Stops n := by
  intro last
  have hnot : Follows (parseNot (innerOf n)) _ _ :=
    (follows_primary h last).chainl fun toks rest hnext hbehind => by
      change afterNot toks = some rest at hnext
      unfold afterNot at hnext
      split at hnext <;> cases hnext
      exact hbehind
  have hor : Follows (parseOr (innerOf n)) _ _ := hnot.chainl fun toks rest hnext hbehind => by
    change afterOr toks = some rest at hnext
    unfold afterOr at hnext
    split at hnext <;> cases hnext
    exact hbehind.1
  have hand : Follows (LeftChain.chainl andOp (parseOr (innerOf n)) .and) _ _ :=
    hor.chainl fun toks rest hnext hbehind => by
      change afterAnd toks = some rest at hnext
      unfold afterAnd at hnext
      split at hnext <;> cases hnext
      · exact hbehind.1.1
      · exact hbehind.1.1
      · exact hbehind.1.1
  rw [← parseAnd_eq] at hand
  intro toks hexpect
  obtain ⟨⟨⟨⟨hend, hnoNot⟩, hnoOr⟩, hnoAnd⟩, hmissing⟩ := hand toks hexpect
  refine ⟨?_, hmissing⟩
  -- only a `)` is no operator and no operand
  generalize ((parseAnd n).parse toks).2 = rest at hend hnoNot hnoOr hnoAnd ⊢
  cases rest with
  | nil => exact Option.some.inj hend
  | cons t rest =>
    cases t with
    | rparen => exact Option.some.inj hend
    | word s => cases hnoAnd
    | lparen => cases hnoAnd
    | and => cases hnoAnd
    | or => cases hnoOr
    | not => cases hnoNot

theorem stops (n : Nat) : Stops n := by
  induction n with
  | zero => exact stops_of_inner nofun
  | succ n ih => exact stops_of_inner fun m hm => Nat.succ.inj hm ▸ ih

/-! ## The words of a query -/

/-- Within the cap the leaves of a query are the words in front of what is left unread. -/
theorem leaves_of_unread {s : List Char} {rest : List Tok} (h : unread s = some rest) :
    ∃ used, tokenize s = used ++ rest ∧
      ((parseQuery s).leaves = words used ∨ words used = [] ∧ rest = []) := by
  obtain ⟨used, hused, hwords⟩ := yields_parseAnd MAX_DEPTH (tokenize s)
  obtain ⟨hrest, hmissing⟩ := stops MAX_DEPTH rest (tokenize s) h
  refine ⟨used, hrest ▸ hused, ?_⟩
  unfold parseQuery
  cases hresult : ((parseAnd MAX_DEPTH).parse (tokenize s)).1 with
  | none =>
    rw [hresult] at hwords
    exact .inr ⟨hwords, hrest.symm.trans (hmissing hresult)⟩
  | some e =>
    rw [hresult] at hwords
    exact .inl hwords.symm

/-- Within the cap on nesting every word of a query is a leaf, in order, exactly when none stands
    behind a `)` that follows an operand outside all parentheses. -/
theorem words_kept_iff {s : List Char} {rest : List Tok} (h : unread s = some rest) :
    (words (tokenize s)).Sublist (parseQuery s).leaves ↔ words rest = [] := by
  obtain ⟨used, hused, hleaves⟩ := leaves_of_unread h
  have hall : words (tokenize s) = words used ++ words rest := by
    rw [hused, words, List.filterMap_append]
    rfl
  rw [hall]
  rcases hleaves with hleaves | ⟨hnone, rfl⟩
  · rw [hleaves]
    constructor
    · intro hkept
      have hlength := hkept.length_le
      rw [List.length_append] at hlength
      exact List.eq_nil_of_length_eq_zero (by omega)
    · intro hnil
      rw [hnil, List.append_nil]
  · rw [hnone]
    exact iff_of_true (List.nil_sublist _) rfl

/-- Stray operators and a group that is never closed lose no word. -/
theorem words_kept_stray :
    (words (tokenize ") OR (a NOT (b OR".toList)).Sublist
      (parseQuery ") OR (a NOT (b OR".toList).leaves :=
  (words_kept_iff (show unread _ = some [] by decide)).mpr rfl

/-- `a) b` is searched as `a`. -/
theorem stray_rparen_drops_word :
    unread "a) b".toList = some [.rparen, .word ['b']] ∧
      ¬(words (tokenize "a) b".toList)).Sublist (parseQuery "a) b".toList).leaves := by
  have hunread : unread "a) b".toList = some [.rparen, .word ['b']] := by decide
  refine ⟨hunread, fun hkept => ?_⟩
  obtain ⟨used, hused, hleaves | ⟨-, hnil⟩⟩ := leaves_of_unread hunread
  · have hlength := hkept.length_le
    rw [hleaves, hused, words, List.filterMap_append, List.length_append] at hlength
    exact absurd hlength (by simp [words, Tok.text])
  · cases hnil

end PadMule.Engine.SearchQuery
