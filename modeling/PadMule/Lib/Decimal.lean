import Mathlib.Data.Nat.Digits.Lemmas
import Mathlib.Tactic

/-
  Decimal text of natural numbers, as ASCII bytes.

  `toDecimal` prints without leading zeros. `parseUnsigned bound` reads an unsigned
  machine integer below `bound`: an optional `+`, then one or more digits, leading
  zeros allowed. Printing then reading is the identity (`parseUnsigned_toDecimal`,
  also behind zero padding), and a cut-off print never reads back as its number
  (`parseUnsigned_take_ne`).
-/

namespace Decimal

def digitChar (d : Nat) : UInt8 := UInt8.ofNat (48 + d)

def IsDigit (b : UInt8) : Prop := 48 ≤ b.toNat ∧ b.toNat ≤ 57

instance : DecidablePred IsDigit := fun _ => inferInstanceAs (Decidable (_ ∧ _))

def toDecimal (n : Nat) : List UInt8 :=
  if n = 0 then [48] else (Nat.digits 10 n).reverse.map digitChar

/-- Digits read after the value `acc`; `none` at the first byte that is no digit. -/
def parseFrom : Nat → List UInt8 → Option Nat
  | acc, [] => some acc
  | acc, b :: bs => if IsDigit b then parseFrom (acc * 10 + (b.toNat - 48)) bs else none

/-- Drop one leading `+`. -/
def stripPlus : List UInt8 → List UInt8
  | [] => []
  | b :: bs => if b = 43 then bs else b :: bs

def parseUnsigned (bound : Nat) (s : List UInt8) : Option Nat :=
  let ds := stripPlus s
  if ds = [] then none else (parseFrom 0 ds).filter (· < bound)

/-! ## Printing -/

theorem toNat_digitChar {d : Nat} (h : d < 10) : (digitChar d).toNat = 48 + d := by
  unfold digitChar
  rw [UInt8.toNat_ofNat_of_lt' (by simp only [UInt8.size]; omega)]

theorem isDigit_digitChar {d : Nat} (h : d < 10) : IsDigit (digitChar d) := by
  unfold IsDigit
  rw [toNat_digitChar h]
  omega

theorem toDecimal_ne_nil (n : Nat) : toDecimal n ≠ [] := by
  unfold toDecimal
  split
  · simp
  · simpa [Nat.digits_eq_nil_iff_eq_zero]

theorem isDigit_of_mem_toDecimal {n : Nat} {b : UInt8} (h : b ∈ toDecimal n) : IsDigit b := by
  unfold toDecimal at h
  split at h
  · rw [List.mem_singleton.mp h]; decide
  · obtain ⟨d, hd, rfl⟩ := List.mem_map.mp h
    exact isDigit_digitChar (Nat.digits_lt_base (by decide) (List.mem_reverse.mp hd))

/-- The digits most significant first; zero prints one. -/
theorem toDecimal_eq_map (n : Nat) :
    ∃ ds : List Nat, toDecimal n = ds.map digitChar ∧ (∀ d ∈ ds, d < 10) ∧
      Nat.ofDigits 10 ds.reverse = n ∧ 10 ^ ds.length ≤ 10 * max n 1 := by
  by_cases h : n = 0
  · exact ⟨[0], by simp [toDecimal, h, digitChar], by simp, by simp [h], by simp⟩
  · refine ⟨(Nat.digits 10 n).reverse, by rw [toDecimal, if_neg h], ?_, ?_, ?_⟩
    · intro d hd
      exact Nat.digits_lt_base (by decide) (List.mem_reverse.mp hd)
    · rw [List.reverse_reverse, Nat.ofDigits_digits]
    · rw [List.length_reverse, Nat.max_eq_left (by omega)]
      exact Nat.base_pow_length_digits_le' 8 n h

theorem lt_length_toDecimal {n k : Nat} (h : 10 ^ k ≤ n) : k < (toDecimal n).length := by
  have hpos : 0 < 10 ^ k := Nat.pow_pos (by decide)
  rw [toDecimal, if_neg (by omega), List.length_map, List.length_reverse]
  exact (Nat.lt_digits_length_iff (by decide) n).mpr h

/-! ## Reading -/

theorem parseFrom_map_digitChar {ds : List Nat} (h : ∀ d ∈ ds, d < 10) (acc : Nat) :
    parseFrom acc (ds.map digitChar) = some (acc * 10 ^ ds.length + Nat.ofDigits 10 ds.reverse) := by
  induction ds generalizing acc with
  | nil => simp [parseFrom]
  | cons d ds ih =>
    obtain ⟨hd, hds⟩ := List.forall_mem_cons.mp h
    rw [List.map_cons, parseFrom, if_pos (isDigit_digitChar hd), toNat_digitChar hd, ih hds,
      List.reverse_cons, Nat.ofDigits_append, Nat.ofDigits_singleton, List.length_reverse,
      List.length_cons, pow_succ]
    congr 1
    rw [Nat.add_sub_cancel_left]
    ring

theorem stripPlus_of_digit {b : UInt8} (h : IsDigit b) (bs : List UInt8) :
    stripPlus (b :: bs) = b :: bs := by
  refine if_neg fun h43 => ?_
  rw [h43] at h
  exact absurd h (by decide)

theorem parseUnsigned_of_digit {b : UInt8} (h : IsDigit b) (bs : List UInt8) (bound : Nat) :
    parseUnsigned bound (b :: bs) = (parseFrom 0 (b :: bs)).filter (· < bound) := by
  unfold parseUnsigned
  rw [stripPlus_of_digit h]
  exact if_neg (by simp)

theorem parseFrom_zeros (k : Nat) (s : List UInt8) :
    parseFrom 0 (List.replicate k 48 ++ s) = parseFrom 0 s := by
  induction k with
  | zero => rfl
  | succ k ih =>
    rw [List.replicate_succ, List.cons_append, parseFrom, if_pos (by decide)]
    exact ih

theorem parseFrom_toDecimal (n : Nat) : parseFrom 0 (toDecimal n) = some n := by
  obtain ⟨ds, hds, hlt, hval, -⟩ := toDecimal_eq_map n
  rw [hds, parseFrom_map_digitChar hlt, hval, zero_mul, zero_add]

/-- Zero padding does not change what is read. -/
theorem parseUnsigned_pad {n bound : Nat} (h : n < bound) (k : Nat) :
    parseUnsigned bound (List.replicate k 48 ++ toDecimal n) = some n := by
  have hdigits : ∀ b ∈ List.replicate k 48 ++ toDecimal n, IsDigit b := by
    intro b hb
    rcases List.mem_append.mp hb with hb | hb
    · rw [List.eq_of_mem_replicate hb]; decide
    · exact isDigit_of_mem_toDecimal hb
  cases hs : List.replicate k 48 ++ toDecimal n with
  | nil => exact absurd (List.append_eq_nil_iff.mp hs).2 (toDecimal_ne_nil n)
  | cons b bs =>
    rw [parseUnsigned_of_digit (hdigits b (by rw [hs]; exact List.mem_cons_self ..)), ← hs,
      parseFrom_zeros, parseFrom_toDecimal]
    simp [h]

theorem parseUnsigned_toDecimal {n bound : Nat} (h : n < bound) :
    parseUnsigned bound (toDecimal n) = some n :=
  parseUnsigned_pad h 0

/-- Cut off before its end, the text of a number reads as a smaller one or not at all. -/
theorem parseUnsigned_take_ne {n k bound : Nat} (h : k < (toDecimal n).length) :
    parseUnsigned bound ((toDecimal n).take k) ≠ some n := by
  obtain ⟨ds, hds, hlt, hval, hlen⟩ := toDecimal_eq_map n
  rw [hds, List.length_map] at h
  rw [hds, ← List.map_take]
  cases hk : ds.take k with
  | nil => simp [parseUnsigned, stripPlus]
  | cons d t =>
    have htake : ∀ x ∈ d :: t, x < 10 := fun x hx => hlt x (List.mem_of_mem_take (hk ▸ hx))
    have hd : IsDigit (digitChar d) := isDigit_digitChar (htake d (List.mem_cons_self ..))
    have hsmall : Nat.ofDigits 10 (d :: t).reverse < 10 ^ (d :: t).length := by
      have := Nat.ofDigits_lt_base_pow_length (b := 10) (by decide)
        (fun x hx => htake x (List.mem_reverse.mp hx))
      rwa [List.length_reverse] at this
    have hlen' : (d :: t).length = k := by rw [← hk, List.length_take]; omega
    have hpos : 0 < k := by rw [← hlen']; exact Nat.succ_pos _
    -- `n` has more digits than were kept, so it is not below `10 ^ k`
    have hbig : 10 ^ k ≤ max n 1 := by
      have : 10 ^ (k + 1) ≤ 10 ^ ds.length := Nat.pow_le_pow_right (by decide) h
      rw [pow_succ] at this
      omega
    have hten : 10 ≤ 10 ^ k := by
      calc 10 = 10 ^ 1 := rfl
        _ ≤ 10 ^ k := Nat.pow_le_pow_right (by decide) hpos
    rw [List.map_cons, parseUnsigned_of_digit hd, ← List.map_cons, parseFrom_map_digitChar htake]
    intro heq
    obtain ⟨heq, -⟩ := Option.filter_eq_some_iff.mp heq
    rw [hlen'] at hsmall
    have := Option.some.inj heq
    omega

end Decimal
