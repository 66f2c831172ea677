import PadMule.Lib.LossyUtf8
import PadMule.Lib.Decimal
import Mathlib.Data.List.DropRight

/-
  Texts as lists of characters: cutting at separators, trimming, lines, ASCII, and numbers.

  A text is cut at the first or at the last separator exactly where it is put together from a front
  and a back of which the one has no separator. What is trimmed does not show whether there was
  white space around it. A number is read from a text exactly if the text is `Digits` of it.
-/

namespace Text

open LossyUtf8
open String (utf8EncodeChar)

/-! ## Cutting -/

section

variable {α : Type*} [DecidableEq α]

/-- Cut at the first separator. -/
def splitOnce (sep : α) : List α → Option (List α × List α)
  | [] => none
  | a :: s => if a = sep then some ([], s) else (splitOnce sep s).map fun cut => (a :: cut.1, cut.2)

/-- Cut at the last separator. -/
def rsplitOnce (sep : α) (s : List α) : Option (List α × List α) :=
  (splitOnce sep s.reverse).map fun cut => (cut.2.reverse, cut.1.reverse)

/-- At most `n` pieces, the last one with what is left. -/
def splitn : Nat → α → List α → List (List α)
  | 0, _, _ => []
  | 1, _, s => [s]
  | n + 2, sep, s =>
    match splitOnce sep s with
    | none => [s]
    | some (front, back) => front :: splitn (n + 1) sep back

theorem splitOnce_eq_none_iff {sep : α} {s : List α} : splitOnce sep s = none ↔ sep ∉ s := by
  induction s with
  | nil => simp [splitOnce]
  | cons a s ih =>
    rw [splitOnce, List.mem_cons, not_or]
    split_ifs with ha
    · simp [ha]
    · rw [Option.map_eq_none_iff, ih]
      simp [Ne.symm ha]

theorem splitOnce_eq_some_iff {sep : α} {s front back : List α} :
    splitOnce sep s = some (front, back) ↔ s = front ++ sep :: back ∧ sep ∉ front := by
  induction s generalizing front with
  | nil => simp [splitOnce]
  | cons a s ih =>
    rw [splitOnce]
    split_ifs with ha
    · cases front with
      | nil => simp [ha]
      | cons b front => simp; grind
    · cases front with
      | nil => simp [ha]
      | cons b front => simp [ih]; grind

theorem splitOnce_append {sep : α} {front : List α} (h : sep ∉ front) (back : List α) :
    splitOnce sep (front ++ sep :: back) = some (front, back) :=
  splitOnce_eq_some_iff.mpr ⟨rfl, h⟩

theorem rsplitOnce_eq_some_iff {sep : α} {s front back : List α} :
    rsplitOnce sep s = some (front, back) ↔ s = front ++ sep :: back ∧ sep ∉ back := by
  have hrev : s.reverse = back.reverse ++ sep :: front.reverse ↔ s = front ++ sep :: back := by
    rw [← List.reverse_inj, List.reverse_reverse]
    simp
  unfold rsplitOnce
  rw [Option.map_eq_some_iff, ← hrev]
  constructor
  · rintro ⟨⟨first, last⟩, hcut, heq⟩
    cases heq
    obtain ⟨hs, hsep⟩ := splitOnce_eq_some_iff.mp hcut
    exact ⟨by simpa using hs, by simpa using hsep⟩
  · rintro ⟨hs, hsep⟩
    exact ⟨(back.reverse, front.reverse), splitOnce_eq_some_iff.mpr ⟨hs, by simpa using hsep⟩,
      by simp⟩

theorem splitn_of_notMem {n : Nat} {sep : α} {s : List α} (h : sep ∉ s) :
    splitn (n + 1) sep s = [s] := by
  cases n with
  | zero => rfl
  | succ n =>
    unfold splitn
    rw [splitOnce_eq_none_iff.mpr h]

theorem splitn_append {n : Nat} {sep : α} {front : List α} (h : sep ∉ front) (back : List α) :
    splitn (n + 2) sep (front ++ sep :: back) = front :: splitn (n + 1) sep back := by
  rw [splitn, splitOnce_append h]

/-- Nothing follows, or a separator. -/
def Ends (sep : α) (rest : List α) : Prop := rest = [] ∨ ∃ more, rest = sep :: more

theorem takeWhile_field {sep : α} {a rest : List α} (ha : sep ∉ a) (hrest : Ends sep rest) :
    (a ++ rest).takeWhile (· ≠ sep) = a := by
  have hall : ∀ c ∈ a, decide (c ≠ sep) = true := fun c hc =>
    decide_eq_true fun heq : c = sep => ha (heq ▸ hc)
  rw [List.takeWhile_append_of_pos hall]
  rcases hrest with rfl | ⟨more, rfl⟩
  · simp
  · simp

/-- Where a field ends is where the next separator is. -/
theorem field_unique {sep : α} {a a' rest rest' : List α} (ha : sep ∉ a) (ha' : sep ∉ a')
    (hrest : Ends sep rest) (hrest' : Ends sep rest') (h : a ++ rest = a' ++ rest') :
    a = a' ∧ rest = rest' := by
  have hsame : a = a' := by rw [← takeWhile_field ha hrest, h, takeWhile_field ha' hrest']
  subst hsame
  exact ⟨rfl, List.append_cancel_left h⟩

end

/-! ## Trimming -/

section

variable {α : Type*} (p : α → Bool)

/-- What is left between those at both ends of which `p` holds. -/
def trim (s : List α) : List α := (s.dropWhile p).rdropWhile p

/-- Nothing but what is trimmed. -/
def Blank (s : List α) : Prop := ∀ a ∈ s, p a = true

theorem dropWhile_append_cons {a : α} (h : p a = false) (front back : List α) :
    (front ++ a :: back).dropWhile p = front.dropWhile p ++ a :: back := by
  rw [List.dropWhile_append, List.dropWhile_cons_of_neg (by simp [h])]
  split
  · rename_i hall
    rw [List.isEmpty_iff.mp hall, List.nil_append]
  · rfl

theorem rdropWhile_append_cons {a : α} (h : p a = false) (front back : List α) :
    (front ++ a :: back).rdropWhile p = front ++ a :: back.rdropWhile p := by
  rw [List.rdropWhile, List.rdropWhile, List.reverse_append, List.reverse_cons, List.append_assoc,
    List.singleton_append, dropWhile_append_cons p h, List.reverse_append, List.reverse_cons,
    List.reverse_reverse, List.append_assoc, List.singleton_append]

/-- Over a character that stays, each end is trimmed on its own side. -/
theorem trim_append_cons {a : α} (h : p a = false) (front back : List α) :
    trim p (front ++ a :: back) = front.dropWhile p ++ a :: back.rdropWhile p := by
  rw [trim, dropWhile_append_cons p h, rdropWhile_append_cons p h]

theorem rdropWhile_append_of_blank {front back : List α} (h : Blank p back) :
    (front ++ back).rdropWhile p = front.rdropWhile p := by
  rw [List.rdropWhile, List.reverse_append, List.dropWhile_append_of_pos, ← List.rdropWhile]
  exact fun a ha => h a (List.mem_reverse.mp ha)

theorem trim_blank_append {front : List α} (h : Blank p front) (s : List α) :
    trim p (front ++ s) = trim p s := by
  rw [trim, List.dropWhile_append_of_pos h, ← trim]

theorem trim_append_blank {back : List α} (h : Blank p back) (s : List α) :
    trim p (s ++ back) = trim p s := by
  by_cases hs : Blank p s
  · have hall : Blank p (s ++ back) := fun a ha => (List.mem_append.mp ha).elim (hs a) (h a)
    rw [trim, trim, List.dropWhile_eq_nil_iff.mpr hs, List.dropWhile_eq_nil_iff.mpr hall]
  · have hne : (s.dropWhile p).isEmpty = false := by
      rw [List.isEmpty_eq_false_iff, ne_eq, List.dropWhile_eq_nil_iff]
      exact hs
    rw [trim, List.dropWhile_append, hne, if_neg Bool.false_ne_true, rdropWhile_append_of_blank p h,
      trim]

/-- What is trimmed and what was around it. -/
theorem exists_trim (s : List α) :
    ∃ front back, Blank p front ∧ Blank p back ∧ s = front ++ trim p s ++ back := by
  refine ⟨s.takeWhile p, (s.dropWhile p).rtakeWhile p, ?_, ?_, ?_⟩
  · exact fun a ha => List.mem_takeWhile_imp ha
  · intro a ha
    rw [List.rtakeWhile, List.mem_reverse] at ha
    exact List.mem_takeWhile_imp ha
  · rw [trim, List.append_assoc, List.rdropWhile_append_rtakeWhile, List.takeWhile_append_dropWhile]

/-- Nothing is trimmed between two characters that stay. -/
theorem trim_of_ends {s : List α} (hfirst : ∀ a, s.head? = some a → p a = false)
    (hlast : ∀ a, s.getLast? = some a → p a = false) : trim p s = s := by
  have hfront : s.dropWhile p = s := by
    cases s with
    | nil => rfl
    | cons a s => exact List.dropWhile_cons_of_neg (by simp [hfirst a rfl])
  rw [trim, hfront, List.rdropWhile_eq_self_iff]
  exact fun hne => by simp [hlast _ (List.getLast?_eq_getLast_of_ne_nil hne)]

theorem trim_of_forall {s : List α} (h : ∀ a ∈ s, p a = false) : trim p s = s :=
  trim_of_ends p (fun a ha => h a (List.mem_of_mem_head? ha))
    fun a ha => h a (List.mem_of_mem_getLast? ha)

/-- What comes first once blanks are gone. -/
theorem head_trim_iff {a : α} (h : p a = false) {s : List α} :
    (trim p s).head? = some a ↔ ∃ front rest, Blank p front ∧ s = front ++ a :: rest := by
  constructor
  · intro hhead
    obtain ⟨front, back, hfront, -, hs⟩ := exists_trim p s
    obtain ⟨rest, hrest⟩ := List.head?_eq_some_iff.mp hhead
    refine ⟨front, rest ++ back, hfront, ?_⟩
    rw [hrest, List.append_assoc, List.cons_append] at hs
    exact hs
  · rintro ⟨front, rest, hfront, rfl⟩
    rw [trim_append_cons p h, List.dropWhile_eq_nil_iff.mpr hfront]
    rfl

theorem trim_ne_nil {a : α} (h : p a = false) {s : List α} (ha : a ∈ s) : trim p s ≠ [] := by
  obtain ⟨front, back, rfl⟩ := List.append_of_mem ha
  rw [trim_append_cons p h]
  exact List.append_ne_nil_of_right_ne_nil _ (List.cons_ne_nil _ _)

theorem trim_dropWhile (s : List α) : trim p (s.dropWhile p) = trim p s := by
  rw [trim, trim, List.dropWhile_idempotent]

theorem trim_rdropWhile (s : List α) : trim p (s.rdropWhile p) = trim p s := by
  have hback : Blank p (s.rtakeWhile p) := by
    intro a ha
    rw [List.rtakeWhile, List.mem_reverse] at ha
    exact List.mem_takeWhile_imp ha
  conv_rhs => rw [← List.rdropWhile_append_rtakeWhile (p := p) (l := s)]
  rw [trim_append_blank p hback]

end

/-! ## Lines -/

/-- A line ends at a line feed or at a carriage return before one; after the last line feed only
    what is not empty is a line. -/
def lines (s : List Char) : List (List Char) :=
  let pieces := s.splitOn '\n'
  pieces.dropLast.map (fun piece => if piece.getLast? = some '\r' then piece.dropLast else piece) ++
    (pieces.getLast?.filter (· ≠ [])).toList

/-! ## ASCII -/

theorem utf8EncodeChar_of_lt {c : Char} (h : c.toNat < 128) :
    utf8EncodeChar c = [.ofNat c.toNat] := by
  have hle : c.val.toNat ≤ 127 := Nat.le_of_lt_succ h
  unfold utf8EncodeChar
  exact if_pos hle

/-- A character beyond ASCII has no byte of ASCII. -/
theorem le_of_mem_utf8EncodeChar {c : Char} (h : 128 ≤ c.toNat) {b : UInt8}
    (hb : b ∈ utf8EncodeChar c) : 128 ≤ b.toNat := by
  have hle : ¬ c.val.toNat ≤ 127 := Nat.not_le.mpr h
  unfold utf8EncodeChar at hb
  dsimp only at hb
  rw [if_neg hle] at hb
  generalize c.val.toNat = v at hb
  split_ifs at hb <;> simp only [List.mem_cons, List.not_mem_nil, or_false] at hb <;>
    rcases hb with rfl | rfl | rfl | rfl <;> simp <;> omega

theorem utf8Bytes_of_lt {s : List Char} (h : ∀ c ∈ s, c.toNat < 128) :
    utf8Bytes s = s.map fun c => .ofNat c.toNat := by
  induction s with
  | nil => rfl
  | cons c s ih =>
    obtain ⟨hc, hs⟩ := List.forall_mem_cons.mp h
    rw [utf8Bytes_cons, utf8EncodeChar_of_lt hc, ih hs, List.map_cons, List.singleton_append]

/-- Only letters of ASCII have another case. -/
theorem lt_of_toLower {c : Char} (h : c.toLower.toNat < 128) : c.toNat < 128 := by
  unfold Char.toLower at h
  split_ifs at h with hupper
  · have hle : c.val.toNat ≤ 90 := UInt32.le_iff_toNat_le.mp hupper.2
    exact Nat.lt_of_le_of_lt hle (by decide)
  · exact h

theorem lt_of_toUpper {c : Char} (h : c.toUpper.toNat < 128) : c.toNat < 128 := by
  unfold Char.toUpper at h
  split_ifs at h with hlower
  · have hle : c.val.toNat ≤ 122 := UInt32.le_iff_toNat_le.mp hlower.2
    exact Nat.lt_of_le_of_lt hle (by decide)
  · exact h

/-- What is decided for the characters of ASCII holds of each of them. -/
theorem forall_ascii (P : Char → Prop) (h : ∀ n < 128, P (.ofNat n)) {c : Char}
    (hc : c.toNat < 128) : P c := by
  have := h c.toNat hc
  rwa [Char.ofNat_toNat] at this

/-! ## Numbers -/

/-- `str::parse` for an unsigned integer below `bound`. -/
def parseUint (bound : Nat) (s : List Char) : Option Nat :=
  Decimal.parseUnsigned bound (utf8Bytes s)

/-- Digits that say `n`; there may be zeros in front. -/
structure Digits (ds : List Char) (n : Nat) : Prop where
  nonempty : ds ≠ []
  digits : ∀ c ∈ ds, c.isDigit
  value : Nat.ofDigitChars 10 ds 0 = n

/-- A number as it is read: a plus may stand in front. -/
def Number (s : List Char) (n : Nat) : Prop := ∃ ds, Digits ds n ∧ (s = ds ∨ s = '+' :: ds)

theorem Digits.number {ds : List Char} {n : Nat} (h : Digits ds n) : Number ds n :=
  ⟨ds, h, .inl rfl⟩

/-- A digit is one byte. -/
theorem utf8EncodeChar_digit {c : Char} (h : c.isDigit) :
    utf8EncodeChar c = [.ofNat c.toNat] ∧ (UInt8.ofNat c.toNat).toNat = c.toNat ∧
      48 ≤ c.toNat ∧ c.toNat ≤ 57 := by
  obtain ⟨hlow, hhigh⟩ := Char.isDigit_iff_toNat.mp h
  have hlow' : 48 ≤ c.toNat := hlow
  have hhigh' : c.toNat ≤ 57 := hhigh
  refine ⟨utf8EncodeChar_of_lt (by omega), ?_, hlow', hhigh'⟩
  exact UInt8.toNat_ofNat_of_lt' (by simp only [UInt8.size]; omega)

/-- The first byte of what is no digit is none. -/
theorem not_isDigit_utf8EncodeChar {c : Char} (h : ¬c.isDigit) :
    ∃ b bs, utf8EncodeChar c = b :: bs ∧ ¬Decimal.IsDigit b := by
  by_cases hlt : c.toNat < 128
  · refine ⟨_, [], utf8EncodeChar_of_lt hlt, fun hb => h (Char.isDigit_iff_toNat.mpr ?_)⟩
    unfold Decimal.IsDigit at hb
    rwa [UInt8.toNat_ofNat_of_lt' (by simp only [UInt8.size]; omega)] at hb
  · obtain ⟨b, bs, hbytes⟩ := List.exists_cons_of_ne_nil (String.utf8EncodeChar_ne_nil (c := c))
    have hbig := le_of_mem_utf8EncodeChar (not_lt.mp hlt) (hbytes ▸ List.mem_cons_self ..)
    refine ⟨b, bs, hbytes, fun hb => ?_⟩
    have := hb.2
    omega

theorem parseFrom_utf8Bytes (s : List Char) (acc : Nat) :
    Decimal.parseFrom acc (utf8Bytes s) =
      if s.all Char.isDigit then some (Nat.ofDigitChars 10 s acc) else none := by
  induction s generalizing acc with
  | nil => simp [utf8Bytes, Decimal.parseFrom]
  | cons c s ih =>
    rw [utf8Bytes_cons]
    by_cases hc : c.isDigit
    · obtain ⟨hbytes, hval, hlow, hhigh⟩ := utf8EncodeChar_digit hc
      have hdigit : Decimal.IsDigit (.ofNat c.toNat) := by
        rw [Decimal.IsDigit, hval]
        exact ⟨hlow, hhigh⟩
      rw [hbytes, List.singleton_append, Decimal.parseFrom, if_pos hdigit, ih, hval,
        Nat.ofDigitChars_cons, Nat.mul_comm]
      simp [hc]
    · obtain ⟨b, bs, hbytes, hb⟩ := not_isDigit_utf8EncodeChar hc
      rw [hbytes, List.cons_append, Decimal.parseFrom, if_neg hb, if_neg (by simp [hc])]

theorem parseFrom_utf8Bytes_eq_some_iff {s : List Char} (hne : s ≠ []) {n : Nat} :
    Decimal.parseFrom 0 (utf8Bytes s) = some n ↔ Digits s n := by
  rw [parseFrom_utf8Bytes]
  constructor
  · intro h
    split_ifs at h with hdigits
    exact ⟨hne, List.all_eq_true.mp hdigits, Option.some.inj h⟩
  · intro h
    rw [if_pos (List.all_eq_true.mpr h.digits), h.value]

theorem utf8Bytes_ne_nil {s : List Char} (h : s ≠ []) : utf8Bytes s ≠ [] := by
  obtain ⟨c, s, rfl⟩ := List.exists_cons_of_ne_nil h
  rw [utf8Bytes_cons]
  exact List.append_ne_nil_of_left_ne_nil String.utf8EncodeChar_ne_nil _

theorem stripPlus_utf8Bytes {c : Char} (h : c ≠ '+') (s : List Char) :
    Decimal.stripPlus (utf8Bytes (c :: s)) = utf8Bytes (c :: s) := by
  obtain ⟨b, bs, hbytes⟩ := List.exists_cons_of_ne_nil (utf8Bytes_ne_nil (List.cons_ne_nil c s))
  rw [hbytes]
  refine if_neg fun hb => h ?_
  rw [utf8Bytes_cons] at hbytes
  by_cases hlt : c.toNat < 128
  · rw [utf8EncodeChar_of_lt hlt] at hbytes
    have hc := congrArg UInt8.toNat ((List.cons.inj hbytes).1.trans hb)
    rw [UInt8.toNat_ofNat_of_lt' (by simp only [UInt8.size]; omega)] at hc
    exact Char.toNat_inj.mp hc
  · obtain ⟨b', bs', hbytes'⟩ := List.exists_cons_of_ne_nil (String.utf8EncodeChar_ne_nil (c := c))
    have hbig := le_of_mem_utf8EncodeChar (not_lt.mp hlt) (hbytes' ▸ List.mem_cons_self ..)
    rw [hbytes', List.cons_append] at hbytes
    rw [(List.cons.inj hbytes).1, hb] at hbig
    exact absurd hbig (by decide)

theorem Digits.head_ne {ds : List Char} {n : Nat} (h : Digits ds n) {c : Char} (hc : ¬c.isDigit)
    (s : List Char) : ds ≠ c :: s := fun hds =>
  hc (h.digits c (hds ▸ List.mem_cons_self ..))

/-- What is read is exactly the numbers below the bound. -/
theorem parseUint_eq_some_iff {bound n : Nat} {s : List Char} :
    parseUint bound s = some n ↔ n < bound ∧ Number s n := by
  have hread (ds : List Char) (hstrip : Decimal.stripPlus (utf8Bytes s) = utf8Bytes ds) :
      parseUint bound s = some n ↔ n < bound ∧ Digits ds n := by
    rw [parseUint, Decimal.parseUnsigned, hstrip]
    by_cases hds : ds = []
    · rw [hds, if_pos (show utf8Bytes [] = [] from rfl)]
      exact ⟨fun h => (by cases h), fun h => absurd rfl h.2.nonempty⟩
    · rw [if_neg (utf8Bytes_ne_nil hds), Option.filter_eq_some_iff, decide_eq_true_iff,
        parseFrom_utf8Bytes_eq_some_iff hds, and_comm]
  rcases s with _ | ⟨c, s⟩
  · rw [hread [] rfl]
    refine and_congr_right fun _ => ⟨fun h => absurd rfl h.nonempty, ?_⟩
    rintro ⟨ds, hds, rfl | h⟩
    · exact hds
    · cases h
  · by_cases hc : c = '+'
    · subst hc
      rw [hread s rfl]
      refine and_congr_right fun _ => ⟨fun h => ⟨s, h, .inr rfl⟩, ?_⟩
      rintro ⟨ds, hds, h | h⟩
      · exact absurd h.symm (hds.head_ne (by decide) s)
      · cases h
        exact hds
    · rw [hread (c :: s) (stripPlus_utf8Bytes hc s)]
      refine and_congr_right fun _ => ⟨fun h => ⟨c :: s, h, .inl rfl⟩, ?_⟩
      rintro ⟨ds, hds, rfl | h⟩
      · exact hds
      · cases h
        exact absurd rfl hc

end Text
