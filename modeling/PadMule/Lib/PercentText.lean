import Mathlib.Tactic

/-
  Percent-encoded bytes, and hexadecimal digits.

  `Spells` says which texts stand for some bytes: a byte other than `%` and `+` may stand for
  itself, a space may be a `+`, and any byte may be a `%` with two digits of either case. Decoding
  also takes a `%` with anything else behind it as it is, and it reads back every text of the bytes
  (`percentDecode_of_spells`).
-/

namespace PercentText

def hexNib (c : UInt8) : Option UInt8 :=
  if 0x30 ≤ c ∧ c ≤ 0x39 then some (c - 0x30)
  else if 0x61 ≤ c ∧ c ≤ 0x66 then some (c - 0x61 + 10)
  else if 0x41 ≤ c ∧ c ≤ 0x46 then some (c - 0x41 + 10)
  else none

/-- The byte of two digits, if both are digits. -/
def hexPair (d e : UInt8) : Option UInt8 :=
  match hexNib d, hexNib e with
  | some h, some l => some (h <<< 4 ||| l)
  | _, _ => none

def percent : UInt8 := 0x25

def plus : UInt8 := 0x2B

def space : UInt8 := 0x20

/-- What a byte that starts no pair of digits stands for. -/
def plain (c : UInt8) : UInt8 := if c = plus then space else c

def percentDecode : List UInt8 → List UInt8
  | [] => []
  | [c] => [plain c]
  | [c, d] => [plain c, plain d]
  | c :: d :: e :: rest =>
    match if c = percent then hexPair d e else none with
    | some b => b :: percentDecode rest
    | none => plain c :: percentDecode (d :: e :: rest)

/-- The texts of some bytes. -/
inductive Spells : List UInt8 → List UInt8 → Prop
  | nil : Spells [] []
  | raw {c : UInt8} {bytes text : List UInt8} (hpercent : c ≠ percent) (hplus : c ≠ plus)
      (h : Spells bytes text) : Spells (c :: bytes) (c :: text)
  | plus {bytes text : List UInt8} (h : Spells bytes text) : Spells (space :: bytes) (plus :: text)
  | pair {b d e : UInt8} {bytes text : List UInt8} (hpair : hexPair d e = some b)
      (h : Spells bytes text) : Spells (b :: bytes) (percent :: d :: e :: text)

theorem percentDecode_cons {c : UInt8} (h : c ≠ percent) (text : List UInt8) :
    percentDecode (c :: text) = plain c :: percentDecode text := by
  match text with
  | [] => rfl
  | [d] => rfl
  | d :: e :: rest => rw [percentDecode, if_neg h]

theorem percentDecode_pair {b d e : UInt8} (h : hexPair d e = some b) (text : List UInt8) :
    percentDecode (percent :: d :: e :: text) = b :: percentDecode text := by
  rw [percentDecode, if_pos rfl, h]

/-- A `%` without digits behind it is one. -/
theorem percentDecode_stray {d e : UInt8} (h : hexPair d e = none) (text : List UInt8) :
    percentDecode (percent :: d :: e :: text) = percent :: percentDecode (d :: e :: text) := by
  rw [percentDecode, if_pos rfl, h]
  rfl

/-- So is one too close to the end. -/
theorem percentDecode_short {text : List UInt8} (h : text.length < 2) (c : UInt8) :
    percentDecode (c :: text) = plain c :: percentDecode text := by
  match text with
  | [] => rfl
  | [d] => rfl
  | d :: e :: rest => simp at h

theorem percentDecode_of_spells {bytes text : List UInt8} (h : Spells bytes text) :
    percentDecode text = bytes := by
  induction h with
  | nil => rfl
  | raw hpercent hplus _ ih => rw [percentDecode_cons hpercent, ih, plain, if_neg hplus]
  | plus _ ih => rw [percentDecode_cons (by decide), ih, plain, if_pos rfl]
  | pair hpair _ ih => rw [percentDecode_pair hpair, ih]

/-- Bytes that need no encoding. -/
theorem spells_self {bytes : List UInt8} (h : ∀ c ∈ bytes, c ≠ percent ∧ c ≠ plus) :
    Spells bytes bytes := by
  induction bytes with
  | nil => exact .nil
  | cons c bytes ih =>
    obtain ⟨hc, hbytes⟩ := List.forall_mem_cons.mp h
    exact .raw hc.1 hc.2 (ih hbytes)

end PercentText
