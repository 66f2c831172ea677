import PadMule.Lib.Inflate

/-
  A zlib decoder for streams of stored blocks, as a byte machine: the two header bytes,
  stored blocks (length, its complement, the bytes), then the Adler-32 checksum. It agrees
  with zlib on these streams, and on whatever fails the header check.
-/

namespace Inflate

namespace StoredZlib

inductive Phase where
  | cmf
  | flg (cmf : UInt8)
  | head
  | len (last : Bool) (seen : List UInt8) -- length and complement bytes read so far
  | data (last : Bool) (left : Nat)
  | check (seen : Nat)
  | done
deriving DecidableEq, Repr

structure State where
  phase : Phase
  a : Nat
  b : Nat
deriving DecidableEq, Repr

/-- What follows a block once `left` bytes of it are still to come. -/
def afterHead (last : Bool) (left : Nat) : Phase :=
  if left = 0 then (if last then .check 0 else .head) else .data last left

def le16 (x y : UInt8) : Nat := x.toNat + 256 * y.toNat

/-- Byte `i` of the checksum, most significant first. -/
def adlerByte (a b : Nat) (i : Nat) : Nat := (b * 65536 + a) / 256 ^ (3 - i) % 256

def step (st : State) (x : UInt8) : Option State :=
  match st.phase with
  | .cmf => some { st with phase := .flg x }
  | .flg c =>
    if (c.toNat * 256 + x.toNat) % 31 = 0 ∧ c.toNat % 16 = 8 ∧ c.toNat / 16 ≤ 7 ∧
      x.toNat / 32 % 2 = 0 then some { st with phase := .head } else none
  | .head => if x.toNat / 2 % 4 = 0 then some { st with phase := .len (x.toNat % 2 == 1) [] } else none
  | .len last [l₀, l₁, n₀] =>
    if le16 l₀ l₁ + le16 n₀ x = 65535 then some { st with phase := afterHead last (le16 l₀ l₁) }
    else none
  | .len last seen => some { st with phase := .len last (seen ++ [x]) }
  | .data last left =>
    let a := (st.a + x.toNat) % 65521
    some ⟨afterHead last (left - 1), a, (st.b + a) % 65521⟩
  | .check seen =>
    if x.toNat = adlerByte st.a st.b seen then
      some { st with phase := if seen = 3 then .done else .check (seen + 1) }
    else none
  | .done => none

def machine : Machine where
  State := State
  start := ⟨.cmf, 1, 0⟩
  emits st := match st.phase with
    | .data _ _ => true
    | _ => false
  final st := st.phase = .done
  step := step

end StoredZlib

/-- The decoder of stored streams. -/
def storedZlib : Inflater := StoredZlib.machine.toInflater

end Inflate
