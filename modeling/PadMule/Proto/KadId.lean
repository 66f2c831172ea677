import PadMule.Proto.Io

/-
  `mule-proto/src/kad_id.rs`: the 128-bit Kademlia ID.

  On disk and on the wire the words stand most significant first, each of them little-endian.
-/

namespace PadMule.Proto

open LittleEndian

/-- Four u32 words, `w0` the most significant. -/
structure Kad128 where
  w0 : UInt32
  w1 : UInt32
  w2 : UInt32
  w3 : UInt32
deriving DecidableEq

namespace Kad128

def fromWire (d : Hash16) : Kad128 :=
  let word (i : Nat) : UInt32 := .ofNat (ofLE ((d.bytes.drop (4 * i)).take 4))
  ⟨word 0, word 1, word 2, word 3⟩

def toWire (id : Kad128) : Hash16 :=
  ⟨writeU32 id.w0 ++ (writeU32 id.w1 ++ (writeU32 id.w2 ++ writeU32 id.w3)), by simp [writeU32]⟩

/-- Of a canonical hash: word `i` is the big-endian value of its bytes from `4 * i` on. -/
def fromHash (hash : Hash16) : Kad128 :=
  let word (i : Nat) : UInt32 := .ofNat (ofLE ((hash.bytes.drop (4 * i)).take 4).reverse)
  ⟨word 0, word 1, word 2, word 3⟩

/-- The canonical hash: every word big-endian. -/
def toHash (id : Kad128) : Hash16 :=
  let word (w : UInt32) : Bytes := (writeU32 w).reverse
  ⟨word id.w0 ++ (word id.w1 ++ (word id.w2 ++ word id.w3)), by simp [word, writeU32]⟩

/-- XOR distance to another id. -/
def distance (self other : Kad128) : Kad128 :=
  ⟨self.w0 ^^^ other.w0, self.w1 ^^^ other.w1, self.w2 ^^^ other.w2, self.w3 ^^^ other.w3⟩

/-- Bit `n` from the most significant one on; 0 past the end. -/
def bit (self : Kad128) (n : Nat) : Bool :=
  let shift := 31 - n % 32
  match n / 32 with
  | 0 => self.w0.toNat.testBit shift
  | 1 => self.w1.toNat.testBit shift
  | 2 => self.w2.toNat.testBit shift
  | 3 => self.w3.toNat.testBit shift
  | _ => false

/-- The id as a number; ids are ordered by it, as `[u32; 4]` is word by word. -/
def value (self : Kad128) : Nat :=
  self.w0.toNat * 2 ^ 96 + self.w1.toNat * 2 ^ 64 + self.w2.toNat * 2 ^ 32 + self.w3.toNat

theorem value_injective : Function.Injective value := by
  rintro ⟨a0, a1, a2, a3⟩ ⟨b0, b1, b2, b3⟩ h
  have ha1 := a1.toNat_lt
  have ha2 := a2.toNat_lt
  have ha3 := a3.toNat_lt
  have hb1 := b1.toNat_lt
  have hb2 := b2.toNat_lt
  have hb3 := b3.toNat_lt
  simp only [value] at h
  simp only [Kad128.mk.injEq, ← UInt32.toNat_inj]
  omega

instance : LinearOrder Kad128 := .lift' value value_injective

/-- The search tolerance on a distance. -/
def withinTolerance (self : Kad128) : Bool := self.w0 ≤ 0x01000000

theorem distance_inj {self a b : Kad128} (h : self.distance a = self.distance b) : a = b := by
  obtain ⟨a0, a1, a2, a3⟩ := a
  obtain ⟨b0, b1, b2, b3⟩ := b
  simp only [distance, Kad128.mk.injEq, UInt32.xor_right_inj] at h
  simp [h]

theorem ofLE_writeU32 (v : UInt32) : UInt32.ofNat (ofLE (writeU32 v)) = v := by
  rw [writeU32, ofLE_toLE (show v.toNat < 256 ^ 4 from v.toNat_lt), UInt32.ofNat_toNat]

theorem fromWire_toWire (id : Kad128) : fromWire id.toWire = id := by
  have hlen (v : UInt32) : (writeU32 v).length = 4 := length_toLE 4 _
  have hskip (v : UInt32) (n : Nat) : (writeU32 v).drop (4 + n) = [] :=
    List.drop_eq_nil_of_le ((hlen v).trans_le (Nat.le_add_right 4 n))
  have htwo (v : UInt32) : (writeU32 v).drop 8 = [] := hskip v 4
  have hthree (v : UInt32) : (writeU32 v).drop 12 = [] := hskip v 8
  have hall (v : UInt32) : (writeU32 v).take 4 = writeU32 v := List.take_of_length_le (hlen v).le
  simp [fromWire, toWire, List.drop_append, hlen, ofLE_writeU32, htwo, hthree, hall]

end Kad128

end PadMule.Proto
