import Mathlib.Tactic

/-
  Little-endian bytes of a natural number, at a fixed width.

  `toLE w n` is `n` in `w` bytes, least significant first; `ofLE` reads bytes back.
  `ofLE_toLE` is exact below `256 ^ w`.
-/

namespace LittleEndian

def toLE : Nat → Nat → List UInt8
  | 0, _ => []
  | w + 1, n => UInt8.ofNat n :: toLE w (n / 256)

def ofLE : List UInt8 → Nat
  | [] => 0
  | b :: bs => b.toNat + 256 * ofLE bs

@[simp] theorem length_toLE (w n : Nat) : (toLE w n).length = w := by
  induction w generalizing n with
  | zero => rfl
  | succ w ih => simp [toLE, ih]

theorem ofLE_toLE {w n : Nat} (h : n < 256 ^ w) : ofLE (toLE w n) = n := by
  induction w generalizing n with
  | zero => simp at h; simp [toLE, ofLE, h]
  | succ w ih =>
    have hdiv : n / 256 < 256 ^ w := by rw [pow_succ] at h; omega
    have hb : (UInt8.ofNat n).toNat = n % 256 := by simp
    rw [toLE, ofLE, ih hdiv, hb]
    omega

theorem ofLE_lt (bs : List UInt8) : ofLE bs < 256 ^ bs.length := by
  induction bs with
  | nil => simp [ofLE]
  | cons b bs ih =>
    have hb : b.toNat < 256 := b.toNat_lt
    rw [ofLE, List.length_cons, pow_succ]
    omega

/-- Bytes read are written back the same. -/
theorem toLE_ofLE (bs : List UInt8) : toLE bs.length (ofLE bs) = bs := by
  induction bs with
  | nil => rfl
  | cons b bs ih =>
    have hb : b.toNat < 256 := b.toNat_lt
    have hdiv : (b.toNat + 256 * ofLE bs) / 256 = ofLE bs := by omega
    have hmod : UInt8.ofNat (b.toNat + 256 * ofLE bs) = b := by
      apply UInt8.toNat.inj
      rw [UInt8.toNat_ofNat']
      omega
    rw [List.length_cons, ofLE, toLE, hdiv, hmod, ih]

theorem ofLE_inj {as bs : List UInt8} (hlen : as.length = bs.length) (h : ofLE as = ofLE bs) :
    as = bs := by
  rw [← toLE_ofLE as, ← toLE_ofLE bs, hlen, h]

end LittleEndian
