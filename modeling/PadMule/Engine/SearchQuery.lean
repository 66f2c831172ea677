import PadMule.Engine.UniqueDest
import PadMule.Lib.LeftChain

/-
  `mule-engine/src/search.rs`: the keyword field of a search as a boolean expression.

  The text is cut into words, phrases, operators and parentheses, and the parser goes down through
  the precedences, NOT tightest, then OR, then AND or two operands next to each other, all to the
  left, with the nesting of parentheses capped. A tree printed in any way that these precedences
  allow, with any space, is parsed to that tree (`parseQuery_printed`).
-/

namespace PadMule.Engine.SearchQuery

open LeftChain

/-- All operators are binary: NOT is "left, and not right". -/
inductive QueryExpr where
  | word (s : List Char)
  | and (l r : QueryExpr)
  | or (l r : QueryExpr)
  | not (l r : QueryExpr)
deriving DecidableEq

inductive Tok where
  | word (s : List Char)
  | and
  | or
  | not
  | lparen
  | rparen
deriving DecidableEq

/-! ## Tokens -/

/-- The token of a bare word. -/
def classify (cur : List Char) : Tok :=
  if cur = ['A', 'N', 'D'] then .and
  else if cur = ['O', 'R'] then .or
  else if cur = ['N', 'O', 'T'] then .not
  else .word cur

def flush (cur : List Char) : List Tok := if cur = [] then [] else [classify cur]

/-- Where the tokenizer stands: in a bare word or between words, or behind a quote. -/
inductive Scan where
  | plain (cur : List Char)
  | quoted (phrase : List Char)

def endPhrase (phrase : List Char) : List Tok := if phrase = [] then [] else [.word phrase]

def scan : Scan → List Char → List Tok
  | .plain cur, [] => flush cur
  | .quoted phrase, [] => endPhrase phrase
  | .quoted phrase, c :: rest =>
    if c = '"' then endPhrase phrase ++ scan (.plain []) rest
    else scan (.quoted (phrase ++ [c])) rest
  | .plain cur, c :: rest =>
    if c = '"' then flush cur ++ scan (.quoted []) rest
    else if c = '(' then flush cur ++ .lparen :: scan (.plain []) rest
    else if c = ')' then flush cur ++ .rparen :: scan (.plain []) rest
    else if isWhitespace c then flush cur ++ scan (.plain []) rest
    else scan (.plain (cur ++ [c])) rest

def tokenize (s : List Char) : List Tok := scan (.plain []) s

/-! ## The parser -/

/-- Cap on the nesting of parentheses. -/
def MAX_DEPTH : Nat := 64

/-- An unmatched parenthesis is closed. -/
def dropRParen : List Tok → List Tok
  | .rparen :: toks => toks
  | toks => toks

/-- What is in parentheses; `none` past the cap. -/
def inParens (inner : Option (Parser Tok QueryExpr)) (toks : List Tok) :
    Option QueryExpr × List Tok :=
  match inner with
  | none => (none, dropRParen toks)
  | some inner => ((inner.parse toks).1, dropRParen (inner.parse toks).2)

/-- A word or a group; stray operators in front of it are skipped. -/
def primary (inner : Option (Parser Tok QueryExpr)) : List Tok → Option QueryExpr × List Tok
  | [] => (none, [])
  | .lparen :: toks => inParens inner toks
  | .word s :: toks => (some (.word s), toks)
  | _ :: toks => primary inner toks

theorem length_dropRParen (toks : List Tok) : (dropRParen toks).length ≤ toks.length := by
  unfold dropRParen
  split
  · exact Nat.le_succ _
  · exact le_refl _

theorem length_inParens (inner : Option (Parser Tok QueryExpr)) (toks : List Tok) :
    (inParens inner toks).2.length ≤ toks.length := by
  unfold inParens
  split
  · exact length_dropRParen toks
  · next inner =>
    have hinner := inner.shrinks toks
    have hdrop := length_dropRParen (inner.parse toks).2
    dsimp only
    omega

theorem length_primary (inner : Option (Parser Tok QueryExpr)) (toks : List Tok) :
    (primary inner toks).2.length ≤ toks.length - 1 := by
  induction toks with
  | nil => exact le_refl _
  | cons t toks ih =>
    have hskip : (primary inner toks).2.length ≤ (t :: toks).length - 1 := by
      rw [List.length_cons]
      omega
    cases t with
    | lparen => exact length_inParens inner toks
    | word s => exact le_refl _
    | and => exact hskip
    | or => exact hskip
    | not => exact hskip
    | rparen => exact hskip

def parsePrimary (inner : Option (Parser Tok QueryExpr)) : Parser Tok QueryExpr :=
  ⟨primary inner, length_primary inner⟩

def afterNot : List Tok → Option (List Tok)
  | .not :: toks => some toks
  | _ => none

def afterOr : List Tok → Option (List Tok)
  | .or :: toks => some toks
  | _ => none

/-- An operand next to the one before needs no operator. -/
def afterAnd : List Tok → Option (List Tok)
  | .and :: toks => some toks
  | .word s :: toks => some (.word s :: toks)
  | .lparen :: toks => some (.lparen :: toks)
  | _ => none

def notOp : Operator Tok where
  next := afterNot
  behind toks rest h := by
    unfold afterNot at h
    split at h <;> cases h
    exact ⟨List.cons_ne_nil _ _, Nat.le_succ _⟩

def orOp : Operator Tok where
  next := afterOr
  behind toks rest h := by
    unfold afterOr at h
    split at h <;> cases h
    exact ⟨List.cons_ne_nil _ _, Nat.le_succ _⟩

def andOp : Operator Tok where
  next := afterAnd
  behind toks rest h := by
    unfold afterAnd at h
    split at h <;> cases h
    · exact ⟨List.cons_ne_nil _ _, Nat.le_succ _⟩
    · exact ⟨List.cons_ne_nil _ _, le_refl _⟩
    · exact ⟨List.cons_ne_nil _ _, le_refl _⟩

def parseNot (inner : Option (Parser Tok QueryExpr)) : Parser Tok QueryExpr :=
  chainl notOp (parsePrimary inner) .not

def parseOr (inner : Option (Parser Tok QueryExpr)) : Parser Tok QueryExpr :=
  chainl orOp (parseNot inner) .or

/-- `parse_and` where that many parentheses may be opened yet. -/
def parseAnd : Nat → Parser Tok QueryExpr
  | 0 => chainl andOp (parseOr none) .and
  | n + 1 => chainl andOp (parseOr (some (parseAnd n))) .and

/-- Text that is no expression is one word. -/
def parseQuery (s : List Char) : QueryExpr :=
  ((parseAnd MAX_DEPTH).parse (tokenize s)).1.getD (.word (trimMatches isWhitespace s))

/-! ## Printing -/

inductive Prec where
  | and
  | or
  | not
  | primary

/-- The ways to print a tree so that it can stand where an operand of this precedence does, with
    at most so many parentheses around anything. -/
inductive Prints : Nat → Prec → QueryExpr → List Tok → Prop where
  | word (n : Nat) (s : List Char) : Prints n .primary (.word s) [.word s]
  | parens {n : Nat} {e : QueryExpr} {toks : List Tok} :
      Prints n .and e toks → Prints (n + 1) .primary e (.lparen :: (toks ++ [.rparen]))
  | not {n : Nat} {l r : QueryExpr} {toks toks' : List Tok} :
      Prints n .not l toks → Prints n .primary r toks' →
        Prints n .not (.not l r) (toks ++ .not :: toks')
  | or {n : Nat} {l r : QueryExpr} {toks toks' : List Tok} :
      Prints n .or l toks → Prints n .not r toks' → Prints n .or (.or l r) (toks ++ .or :: toks')
  | and {n : Nat} {l r : QueryExpr} {toks toks' : List Tok} :
      Prints n .and l toks → Prints n .or r toks' → Prints n .and (.and l r) (toks ++ .and :: toks')
  | adjacent {n : Nat} {l r : QueryExpr} {toks toks' : List Tok} :
      Prints n .and l toks → Prints n .or r toks' → Prints n .and (.and l r) (toks ++ toks')
  | primary_not {n : Nat} {e : QueryExpr} {toks : List Tok} :
      Prints n .primary e toks → Prints n .not e toks
  | not_or {n : Nat} {e : QueryExpr} {toks : List Tok} : Prints n .not e toks → Prints n .or e toks
  | or_and {n : Nat} {e : QueryExpr} {toks : List Tok} : Prints n .or e toks → Prints n .and e toks

/-- A character of a bare word. -/
def Bare (c : Char) : Prop := c ≠ '"' ∧ c ≠ '(' ∧ c ≠ ')' ∧ isWhitespace c = false

instance (c : Char) : Decidable (Bare c) := inferInstanceAs (Decidable (_ ∧ _))

theorem bare_of_all {w : List Char} (h : (w.all fun c => decide (Bare c)) = true) :
    ∀ c ∈ w, Bare c := fun c hc => of_decide_eq_true (List.all_eq_true.mp h c hc)

/-- The texts that spell these tokens. Behind a bare word, as the flag says, no other one may stand
    without a space. -/
inductive Spells : Bool → List Tok → List Char → Prop where
  | done (behind : Bool) : Spells behind [] []
  | space (behind : Bool) {toks : List Tok} {s : List Char} {c : Char} :
      isWhitespace c = true → Spells false toks s → Spells behind toks (c :: s)
  | lparen (behind : Bool) {toks : List Tok} {s : List Char} :
      Spells false toks s → Spells behind (.lparen :: toks) ('(' :: s)
  | rparen (behind : Bool) {toks : List Tok} {s : List Char} :
      Spells false toks s → Spells behind (.rparen :: toks) (')' :: s)
  | quoted (behind : Bool) {toks : List Tok} {s : List Char} {w : List Char} :
      w ≠ [] → '"' ∉ w → Spells false toks s →
        Spells behind (.word w :: toks) ('"' :: (w ++ '"' :: s))
  | bare {toks : List Tok} {s : List Char} {w : List Char} :
      w ≠ [] → (∀ c ∈ w, Bare c) → Spells true toks s → Spells false (classify w :: toks) (w ++ s)

/-! ## Texts that are cut into their tokens -/

theorem scan_bare {w : List Char} (hw : ∀ c ∈ w, Bare c) (cur s : List Char) :
    scan (.plain cur) (w ++ s) = scan (.plain (cur ++ w)) s := by
  induction w generalizing cur with
  | nil => rw [List.nil_append, List.append_nil]
  | cons c w ih =>
    obtain ⟨⟨hquote, hopen, hclose, hspace⟩, hrest⟩ := List.forall_mem_cons.mp hw
    rw [List.cons_append, scan, if_neg hquote, if_neg hopen, if_neg hclose, hspace,
      if_neg Bool.false_ne_true, ih hrest, List.append_assoc]
    rfl

theorem scan_quoted {w : List Char} (hw : '"' ∉ w) (phrase s : List Char) :
    scan (.quoted phrase) (w ++ '"' :: s) = endPhrase (phrase ++ w) ++ scan (.plain []) s := by
  induction w generalizing phrase with
  | nil => rw [List.nil_append, List.append_nil, scan, if_pos rfl]
  | cons c w ih =>
    have hc : c ≠ '"' := fun heq => hw (heq ▸ List.mem_cons_self)
    have hrest : '"' ∉ w := fun hmem => hw (List.mem_cons_of_mem _ hmem)
    rw [List.cons_append, scan, if_neg hc, ih hrest, List.append_assoc]
    rfl

/-- Whitespace is none of the characters that mean something. -/
theorem ne_of_isWhitespace {c : Char} (h : isWhitespace c = true) :
    c ≠ '"' ∧ c ≠ '(' ∧ c ≠ ')' := by
  refine ⟨?_, ?_, ?_⟩
  all_goals
    rintro rfl
    revert h
    decide

theorem scan_spells {behind : Bool} {toks : List Tok} {s : List Char} (h : Spells behind toks s)
    {cur : List Char} (hcur : cur = [] ∨ behind = true) :
    scan (.plain cur) s = flush cur ++ toks := by
  induction h generalizing cur with
  | done behind => rw [scan, List.append_nil]
  | space behind hspace _ ih =>
    obtain ⟨hquote, hopen, hclose⟩ := ne_of_isWhitespace hspace
    rw [scan, if_neg hquote, if_neg hopen, if_neg hclose, if_pos hspace, ih (.inl rfl)]
    rfl
  | lparen behind _ ih =>
    rw [scan, if_neg (by decide), if_pos rfl, ih (.inl rfl)]
    rfl
  | rparen behind _ ih =>
    rw [scan, if_neg (by decide), if_neg (by decide), if_pos rfl, ih (.inl rfl)]
    rfl
  | quoted behind hne hquote _ ih =>
    rw [scan, if_pos rfl, scan_quoted hquote, ih (.inl rfl), List.nil_append, endPhrase,
      if_neg hne]
    rfl
  | @bare toks s w hne hw _ ih =>
    obtain rfl := hcur.resolve_right Bool.false_ne_true
    rw [scan_bare hw, List.nil_append, ih (.inr rfl), flush, if_neg hne]
    rfl

theorem tokenize_spells {toks : List Tok} {s : List Char} (h : Spells false toks s) :
    tokenize s = toks := scan_spells h (.inl rfl)

/-! ## Tokens that are parsed to their tree -/

/-- The parser in parentheses where that many may be opened. -/
def innerOf : Nat → Option (Parser Tok QueryExpr)
  | 0 => none
  | n + 1 => some (parseAnd n)

theorem parseAnd_eq (n : Nat) : parseAnd n = chainl andOp (parseOr (innerOf n)) .and := by
  cases n <;> rfl

/-- The tokens of a tree are no operator and can stand next to an operand. -/
theorem starts_of_prints {n : Nat} {p : Prec} {e : QueryExpr} {toks : List Tok}
    (h : Prints n p e toks) (rest : List Tok) :
    afterNot (toks ++ rest) = none ∧ afterOr (toks ++ rest) = none ∧
      afterAnd (toks ++ rest) = some (toks ++ rest) := by
  induction h generalizing rest with
  | word n s => exact ⟨rfl, rfl, rfl⟩
  | parens _ _ => exact ⟨rfl, rfl, rfl⟩
  | not _ _ ih _ =>
    rw [List.append_assoc]
    exact ih _
  | or _ _ ih _ =>
    rw [List.append_assoc]
    exact ih _
  | and _ _ ih _ =>
    rw [List.append_assoc]
    exact ih _
  | adjacent _ _ ih _ =>
    rw [List.append_assoc]
    exact ih _
  | primary_not _ ih => exact ih rest
  | not_or _ ih => exact ih rest
  | or_and _ ih => exact ih rest

/-- What a level of the parser makes of the tokens of `e` and what is behind them: `e` is the left
    operand of what comes next on this level. -/
def Parsed (k : Nat) : Prec → QueryExpr → List Tok → Prop
  | .primary, e, toks => ∀ rest, primary (innerOf k) (toks ++ rest) = (some e, rest)
  | .not, e, toks => ∀ rest, (parseNot (innerOf k)).parse (toks ++ rest) =
      (some (loop notOp (parsePrimary (innerOf k)) .not e rest).1,
        (loop notOp (parsePrimary (innerOf k)) .not e rest).2)
  | .or, e, toks => ∀ rest, afterNot rest = none → (parseOr (innerOf k)).parse (toks ++ rest) =
      (some (loop orOp (parseNot (innerOf k)) .or e rest).1,
        (loop orOp (parseNot (innerOf k)) .or e rest).2)
  | .and, e, toks => ∀ rest, afterNot rest = none → afterOr rest = none →
      (parseAnd k).parse (toks ++ rest) =
        (some (loop andOp (parseOr (innerOf k)) .and e rest).1,
          (loop andOp (parseOr (innerOf k)) .and e rest).2)

section

variable {k : Nat} {e : QueryExpr} {toks rest : List Tok}

/-- Where the operator of the level does not follow, the operand ends. -/
theorem Parsed.not_ends (h : Parsed k .not e toks) (hrest : afterNot rest = none) :
    (parseNot (innerOf k)).parse (toks ++ rest) = (some e, rest) := by
  have hstop : notOp.next rest = none := hrest
  rw [h rest, loop_stop hstop]

theorem Parsed.or_ends (h : Parsed k .or e toks) (hnot : afterNot rest = none)
    (hor : afterOr rest = none) :
    (parseOr (innerOf k)).parse (toks ++ rest) = (some e, rest) := by
  have hstop : orOp.next rest = none := hor
  rw [h rest hnot, loop_stop hstop]

theorem Parsed.and_ends (h : Parsed k .and e toks) (hnot : afterNot rest = none)
    (hor : afterOr rest = none) (hand : afterAnd rest = none) :
    (parseAnd k).parse (toks ++ rest) = (some e, rest) := by
  have hstop : andOp.next rest = none := hand
  rw [h rest hnot hor, loop_stop hstop]

end

theorem parsed_of_prints {n : Nat} {p : Prec} {e : QueryExpr} {toks : List Tok}
    (h : Prints n p e toks) {k : Nat} (hk : n ≤ k) : Parsed k p e toks := by
  induction h generalizing k with
  | word n s => exact fun rest => rfl
  | @parens n e toks _ ih =>
    obtain ⟨k, rfl⟩ : ∃ j, k = j + 1 := ⟨k - 1, by omega⟩
    intro rest
    have hinner : (parseAnd k).parse (toks ++ .rparen :: rest) = (some e, .rparen :: rest) :=
      Parsed.and_ends (ih (Nat.le_of_succ_le_succ hk)) rfl rfl rfl
    rw [List.cons_append, List.append_assoc]
    show inParens (some (parseAnd k)) (toks ++ .rparen :: rest) = (some e, rest)
    rw [inParens, hinner]
    rfl
  | @not n l r toks toks' _ _ ihl ihr =>
    intro rest
    have hright : (parsePrimary (innerOf k)).parse (toks' ++ rest) = (some r, rest) := ihr hk rest
    have hnext : notOp.next (.not :: (toks' ++ rest)) = some (toks' ++ rest) := rfl
    rw [List.append_assoc, List.cons_append, ihl hk, loop_next hnext hright]
  | @or n l r toks toks' _ _ ihl ihr =>
    intro rest hnot
    have hright := Parsed.not_ends (ihr hk) hnot
    have hnext : orOp.next (.or :: (toks' ++ rest)) = some (toks' ++ rest) := rfl
    rw [List.append_assoc, List.cons_append, ihl hk _ rfl, loop_next hnext hright]
  | @and n l r toks toks' _ _ ihl ihr =>
    intro rest hnot hor
    have hright := Parsed.or_ends (ihr hk) hnot hor
    have hnext : andOp.next (.and :: (toks' ++ rest)) = some (toks' ++ rest) := rfl
    rw [List.append_assoc, List.cons_append, ihl hk _ rfl rfl, loop_next hnext hright]
  | @adjacent n l r toks toks' _ hr ihl ihr =>
    intro rest hnot hor
    obtain ⟨hnot', hor', hand⟩ := starts_of_prints hr rest
    have hright := Parsed.or_ends (ihr hk) hnot hor
    have hnext : andOp.next (toks' ++ rest) = some (toks' ++ rest) := hand
    rw [List.append_assoc, ihl hk _ hnot' hor', loop_next hnext hright]
  | primary_not _ ih => exact fun rest => parse_chainl (ih hk rest)
  | not_or _ ih => exact fun rest hnot => parse_chainl (Parsed.not_ends (ih hk) hnot)
  | or_and _ ih =>
    intro rest hnot hor
    rw [parseAnd_eq]
    exact parse_chainl (Parsed.or_ends (ih hk) hnot hor)

/-- However a tree is printed, its text is parsed to the tree. -/
theorem parseQuery_printed {e : QueryExpr} {toks : List Tok} {s : List Char}
    (h : Prints MAX_DEPTH .and e toks) (hs : Spells false toks s) : parseQuery s = e := by
  have hparse : (parseAnd MAX_DEPTH).parse (toks ++ []) = (some e, []) :=
    Parsed.and_ends (parsed_of_prints h (le_refl _)) rfl rfl rfl
  rw [List.append_nil] at hparse
  rw [parseQuery, tokenize_spells hs, hparse]
  rfl

end PadMule.Engine.SearchQuery
