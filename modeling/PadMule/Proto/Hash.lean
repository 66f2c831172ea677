import Mathlib.Tactic

/-
  Sizes and digests shared by the wire codecs, the met files and the engine.
-/

namespace PadMule

/-- eD2k part size in bytes. -/
def PARTSIZE : Nat := 9728000

/-- AICH leaf block size. -/
def EMBLOCKSIZE : Nat := 184320

/-- Largest file of the 32-bit encodings; strictly larger files are "large". -/
def OLD_MAX_FILE_SIZE : Nat := 4290048000

abbrev Bytes := List UInt8

/-- A fixed-width digest: `[u8; n]`. -/
structure Digest (n : Nat) where
  bytes : Bytes
  len : bytes.length = n
deriving DecidableEq

theorem Digest.ext_bytes {n : Nat} {a b : Digest n} (h : a.bytes = b.bytes) : a = b := by
  cases a; cases b; cases h; rfl

/-- The digest whose bytes are all `b`: `[b; n]`. -/
def Digest.fill (n : Nat) (b : UInt8) : Digest n :=
  ⟨List.replicate n b, List.length_replicate⟩

/-- MD4 output. -/
abbrev Hash16 := Digest 16

/-- SHA-1 output. -/
abbrev Hash20 := Digest 20

-- Every test for membership in a list of hashes uses these two.
instance : LawfulBEq Hash16 := inferInstance

instance : LawfulBEq Hash20 := inferInstance

end PadMule
