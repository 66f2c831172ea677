import PadMule.Lib.Decimal

/-
  Comma-separated lists of unsigned integers as text.

  `format` prints numbers in decimal with a comma between them. `parse bound` splits
  at commas, trims each piece of white space and keeps the pieces that are integers
  below `bound`. Printing then parsing is the identity (`parse_format`); a text cut off
  before its end never parses to the list it came from (`parse_take_ne`).
-/

namespace CommaList

open Decimal

def comma : UInt8 := 44

def format : List Nat → List UInt8
  | [] => []
  | [n] => toDecimal n
  | n :: m :: ns => toDecimal n ++ comma :: format (m :: ns)

/-- The UTF-8 encodings of the characters with the White_Space property. -/
def spaces : List (List UInt8) :=
  [[0x09], [0x0A], [0x0B], [0x0C], [0x0D], [0x20], [0xC2, 0x85], [0xC2, 0xA0], [0xE1, 0x9A, 0x80],
    [0xE2, 0x80, 0x80], [0xE2, 0x80, 0x81], [0xE2, 0x80, 0x82], [0xE2, 0x80, 0x83],
    [0xE2, 0x80, 0x84], [0xE2, 0x80, 0x85], [0xE2, 0x80, 0x86], [0xE2, 0x80, 0x87],
    [0xE2, 0x80, 0x88], [0xE2, 0x80, 0x89], [0xE2, 0x80, 0x8A], [0xE2, 0x80, 0xA8],
    [0xE2, 0x80, 0xA9], [0xE2, 0x80, 0xAF], [0xE2, 0x81, 0x9F], [0xE3, 0x80, 0x80]]

/-- Drop the words of `ws` that stand at the front, at most `fuel` of them. -/
def dropWords (ws : List (List UInt8)) : Nat → List UInt8 → List UInt8
  | 0, s => s
  | fuel + 1, s =>
    match ws.find? (·.isPrefixOf s) with
    | none => s
    | some w => dropWords ws fuel (s.drop w.length)

/-- Drop white space at both ends. On the bytes this is the same as on the decoded
    text: no space's encoding is the end of another character's. -/
def trim (s : List UInt8) : List UInt8 :=
  let t := (dropWords spaces s.length s).reverse
  (dropWords (spaces.map List.reverse) t.length t).reverse

def parse (bound : Nat) (s : List UInt8) : List Nat :=
  (s.splitOn comma).filterMap fun piece => parseUnsigned bound (trim piece)

/-! ## Pieces made of digits -/

theorem dropWords_of_digits {ws : List (List UInt8)}
    (hws : ∀ w ∈ ws, w ≠ [] ∧ ∀ b ∈ w, ¬ IsDigit b) {s : List UInt8} (hs : ∀ b ∈ s, IsDigit b)
    (fuel : Nat) : dropWords ws fuel s = s := by
  cases fuel with
  | zero => rfl
  | succ fuel =>
    have hfind : ws.find? (·.isPrefixOf s) = none := by
      refine List.find?_eq_none.mpr fun w hw hp => ?_
      obtain ⟨hne, hd⟩ := hws w hw
      obtain ⟨b, t, rfl⟩ := List.exists_cons_of_ne_nil hne
      obtain ⟨u, rfl⟩ := List.isPrefixOf_iff_prefix.mp hp
      exact hd b (List.mem_cons_self ..) (hs b (by simp))
    rw [dropWords, hfind]

theorem trim_of_digits {s : List UInt8} (h : ∀ b ∈ s, IsDigit b) : trim s = s := by
  have hfront : ∀ w ∈ spaces, w ≠ [] ∧ ∀ b ∈ w, ¬ IsDigit b := by decide +kernel
  have hback : ∀ w ∈ spaces.map List.reverse, w ≠ [] ∧ ∀ b ∈ w, ¬ IsDigit b := by decide +kernel
  have hrev : ∀ b ∈ s.reverse, IsDigit b := fun b hb => h b (List.mem_reverse.mp hb)
  unfold trim
  rw [dropWords_of_digits hfront h]
  dsimp only
  rw [dropWords_of_digits hback hrev, List.reverse_reverse]

theorem comma_notMem_digits {s : List UInt8} (h : ∀ b ∈ s, IsDigit b) : comma ∉ s :=
  fun hc => absurd (h comma hc) (by decide)

theorem parse_digits {bound : Nat} {s : List UInt8} (h : ∀ b ∈ s, IsDigit b) :
    parse bound s = (parseUnsigned bound s).toList := by
  unfold parse
  rw [List.splitOn_eq_singleton (comma_notMem_digits h), List.filterMap_cons, trim_of_digits h]
  cases parseUnsigned bound s <;> rfl

theorem parse_digits_comma {bound : Nat} {s : List UInt8} (h : ∀ b ∈ s, IsDigit b)
    (t : List UInt8) :
    parse bound (s ++ comma :: t) = (parseUnsigned bound s).toList ++ parse bound t := by
  have hs : parse bound s = (parseUnsigned bound s).toList := parse_digits h
  unfold parse at hs ⊢
  rw [List.splitOn_append_cons_self, List.filterMap_append, hs]

/-! ## Parsing printed lists -/

theorem parse_format {bound : Nat} {ns : List Nat} (h : ∀ n ∈ ns, n < bound) :
    parse bound (format ns) = ns := by
  have hd : ∀ n, ∀ b ∈ toDecimal n, IsDigit b := fun _ _ => isDigit_of_mem_toDecimal
  induction ns with
  | nil => rfl
  | cons n ns ih =>
    obtain ⟨hn, hns⟩ := List.forall_mem_cons.mp h
    have hp := parseUnsigned_toDecimal hn
    cases ns with
    | nil => rw [format, parse_digits (hd n), hp]; rfl
    | cons m ns => rw [format, parse_digits_comma (hd n), hp, ih hns]; rfl

/-- A number other than `n` in front, or nothing, is not a list starting with `n`. -/
theorem toList_ne_cons {n : Nat} {o : Option Nat} (h : o ≠ some n) (ns : List Nat) :
    o.toList ≠ n :: ns := by
  cases o with
  | none => exact (List.cons_ne_nil _ _).symm
  | some m =>
    intro heq
    exact h (congrArg some (List.cons.inj heq).1)

/-- Cut inside a number the last piece reads smaller or not at all; cut at a comma the
    rest of the list is gone. -/
theorem parse_take_ne {bound : Nat} {ns : List Nat} (h : ∀ n ∈ ns, n < bound) {k : Nat}
    (hk : k < (format ns).length) : parse bound ((format ns).take k) ≠ ns := by
  induction ns generalizing k with
  | nil => simp [format] at hk
  | cons n ns ih =>
    obtain ⟨hn, hns⟩ := List.forall_mem_cons.mp h
    have hd : ∀ b ∈ toDecimal n, IsDigit b := fun _ => isDigit_of_mem_toDecimal
    have hcut : ∀ j, j < (toDecimal n).length →
        parse bound ((toDecimal n).take j) ≠ n :: ns := by
      intro j hj
      rw [parse_digits fun b hb => hd b (List.mem_of_mem_take hb)]
      exact toList_ne_cons (parseUnsigned_take_ne hj) ns
    cases ns with
    | nil => exact hcut k hk
    | cons m ns =>
      rw [format, List.take_append]
      rcases Nat.lt_or_ge k (toDecimal n).length with hlt | hge
      · rw [Nat.sub_eq_zero_of_le hlt.le, List.take_zero, List.append_nil]
        exact hcut k hlt
      · rw [List.take_of_length_le hge]
        cases hj : k - (toDecimal n).length with
        | zero =>
          rw [List.take_zero, List.append_nil, parse_digits hd, parseUnsigned_toDecimal hn]
          simp
        | succ j =>
          have hlt : j < (format (m :: ns)).length := by
            rw [format, List.length_append, List.length_cons] at hk
            omega
          rw [List.take_succ_cons, parse_digits_comma hd, parseUnsigned_toDecimal hn]
          intro heq
          exact ih hns hlt (List.cons.inj heq).2

theorem length_format_cons_cons (n m : Nat) (ns : List Nat) :
    (format (n :: m :: ns)).length = (toDecimal n).length + 1 + (format (m :: ns)).length := by
  rw [format, List.length_append, List.length_cons]
  omega

/-- The length of a printed list: its numbers' digits and the commas between them. -/
theorem length_format (ns : List Nat) :
    (format ns).length = (ns.map fun n => (toDecimal n).length).sum + (ns.length - 1) := by
  induction ns with
  | nil => rfl
  | cons n ns ih =>
    cases ns with
    | nil => simp [format]
    | cons m ns =>
      rw [length_format_cons_cons, ih, List.map_cons (l := m :: ns), List.sum_cons]
      simp only [List.length_cons]
      omega

end CommaList
