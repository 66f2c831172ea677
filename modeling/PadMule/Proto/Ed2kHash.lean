import PadMule.Proto.Hash

/-
  `mule-proto/src/hash.rs`: the eD2k hash of a file, in memory and one part at a time.
-/

namespace PadMule.Proto

/-- `part_count`: one more than `data_part_count` for an exact multiple. -/
def partCount (size : Nat) : Nat := size / PARTSIZE + 1

section

variable (md4 : Bytes → Hash16)

/-- `ed2k_hash`. -/
def ed2kHash (data : Bytes) : Hash16 :=
  let n := partCount data.length
  if n = 1 then md4 data
  else
    md4 ((List.range n).flatMap fun i =>
      let start := i * PARTSIZE
      let stop := min (start + PARTSIZE) data.length
      (md4 ((data.take stop).drop start)).bytes)

/-- `ed2k_hash_parts`; the sentinel part of an exact multiple is never read. -/
def ed2kHashParts (size : Nat) (readPart : Nat → Option Bytes) : Option Hash16 :=
  let n := partCount size
  if n = 1 then (if size = 0 then some [] else readPart 0).map md4
  else
    ((List.range n).mapM fun i => if size ≤ i * PARTSIZE then some [] else readPart i).map fun parts =>
      md4 (parts.flatMap fun data => (md4 data).bytes)

end

theorem mapM_some {α β : Type*} {f : α → Option β} {g : α → β} {l : List α}
    (h : ∀ a ∈ l, f a = some (g a)) : l.mapM f = some (l.map g) := by
  induction l with
  | nil => rfl
  | cons a l ih =>
    obtain ⟨ha, hl⟩ := List.forall_mem_cons.mp h
    rw [List.mapM_cons, ha, ih hl]
    rfl

/-- A reader that returns each part of `data` yields its hash. -/
theorem ed2kHashParts_eq (md4 : Bytes → Hash16) {data : Bytes} {readPart : Nat → Option Bytes}
    (h : ∀ i, i * PARTSIZE < data.length →
      readPart i = some ((data.drop (i * PARTSIZE)).take PARTSIZE)) :
    ed2kHashParts md4 data.length readPart = some (ed2kHash md4 data) := by
  have hslice : ∀ i, (data.take (min (i * PARTSIZE + PARTSIZE) data.length)).drop (i * PARTSIZE) =
      (data.drop (i * PARTSIZE)).take PARTSIZE := by
    intro i
    rw [← List.take_take, List.take_length, List.drop_take, Nat.add_sub_cancel_left]
  unfold ed2kHashParts ed2kHash
  dsimp only
  split_ifs with hone hzero
  · rw [List.length_eq_zero_iff.mp hzero]
    rfl
  · have hlt : data.length < PARTSIZE := by
      unfold partCount at hone
      exact (Nat.div_eq_zero_iff_lt (by decide)).mp (by omega)
    have hread := h 0 (by omega)
    rw [Nat.zero_mul, List.drop_zero, List.take_of_length_le hlt.le] at hread
    rw [hread]
    rfl
  · have hparts := mapM_some (l := List.range (partCount data.length))
      (f := fun i => if data.length ≤ i * PARTSIZE then some [] else readPart i)
      (g := fun i => (data.take (min (i * PARTSIZE + PARTSIZE) data.length)).drop (i * PARTSIZE))
      fun i _ => by
        rw [hslice]
        split_ifs with hend
        · rw [List.drop_eq_nil_of_le hend, List.take_nil]
        · exact h i (Nat.lt_of_not_le hend)
    rw [hparts, Option.map_some, List.flatMap_map]

end PadMule.Proto
