import PadMule.Proto.Io

/-
  `mule-files/src/known2_met.rs`: the store of AICH hashsets.

  A version byte, then the hashsets one behind the other, each with its root, a u32 count and the
  leaves. A walk takes them as long as they are whole, so a torn tail counts for nothing. Removing
  a root takes exactly the hashsets with that root (`known2Entries_remove`).
-/

namespace PadMule.Files

open PadMule.Proto LittleEndian

def KNOWN2_MET_VERSION : UInt8 := 0x02

def HASHSIZE : Nat := 20

/-- Root and count. -/
def ENTRY_HEADER : Nat := HASHSIZE + 4

def leafCount (b : Bytes) : Nat := ofLE ((b.drop HASHSIZE).take 4)

def entryLen (b : Bytes) : Nat := ENTRY_HEADER + leafCount b * HASHSIZE

/-- The bytes of one whole hashset. -/
structure Known2Entry where
  bytes : Bytes
  whole : bytes.length = entryLen bytes
deriving DecidableEq

theorem header_le_entryLen (b : Bytes) : ENTRY_HEADER ≤ entryLen b := Nat.le_add_right ..

/-- The length only depends on the header. -/
theorem entryLen_append {b : Bytes} (h : ENTRY_HEADER ≤ b.length) (rest : Bytes) :
    entryLen (b ++ rest) = entryLen b := by
  have hdrop : HASHSIZE ≤ b.length := le_trans (by decide) h
  have htake : 4 ≤ (b.drop HASHSIZE).length := by
    rw [List.length_drop]
    unfold ENTRY_HEADER at h
    omega
  rw [entryLen, leafCount, List.drop_append_of_le_length hdrop,
    List.take_append_of_le_length htake]
  rfl

theorem entryLen_take {b : Bytes} (h : entryLen b ≤ b.length) :
    entryLen (b.take (entryLen b)) = entryLen b := by
  have hhead : ENTRY_HEADER ≤ (b.take (entryLen b)).length := by
    rw [List.length_take_of_le h]
    exact header_le_entryLen b
  have happend := entryLen_append hhead (b.drop (entryLen b))
  rw [List.take_append_drop] at happend
  exact happend.symm

namespace Known2Entry

theorem header_le (e : Known2Entry) : ENTRY_HEADER ≤ e.bytes.length :=
  e.whole ▸ header_le_entryLen e.bytes

def root (e : Known2Entry) : Hash20 :=
  ⟨e.bytes.take HASHSIZE, List.length_take_of_le (le_trans (by decide) e.header_le)⟩

end Known2Entry

/-! ## The walk -/

/-- The next hashset if it is whole, and what is behind it. -/
def nextEntry (rest : Bytes) : Option (Known2Entry × Bytes) :=
  if h : ENTRY_HEADER ≤ rest.length ∧ entryLen rest ≤ rest.length then
    some (⟨rest.take (entryLen rest), by rw [entryLen_take h.2, List.length_take_of_le h.2]⟩,
      rest.drop (entryLen rest))
  else none

/-- At most `n` hashsets. -/
def entriesFrom : Nat → Bytes → List Known2Entry
  | 0, _ => []
  | n + 1, rest =>
    match nextEntry rest with
    | none => []
    | some (e, rest) => e :: entriesFrom n rest

/-- The whole hashsets behind the version byte, in file order, duplicates included. -/
def wholeEntries (rest : Bytes) : List Known2Entry := entriesFrom rest.length rest

structure Known2Index where
  /-- Roots with the offset of their first hashset. -/
  byRoot : List (Hash20 × Nat)
  /-- Length of the prefix that is whole. -/
  validLen : Nat
deriving DecidableEq

def indexFrom : Nat → List Known2Entry → List (Hash20 × Nat)
  | _, [] => []
  | pos, e :: es =>
    (e.root, pos) :: (indexFrom (pos + e.bytes.length) es).filter fun r => r.1 ≠ e.root

def scanKnown2Met : Bytes → Except IoError Known2Index
  | [] => .error .unexpectedEof
  | version :: rest =>
    if version ≠ KNOWN2_MET_VERSION then .error (.badTag version)
    else
      let es := wholeEntries rest
      .ok ⟨indexFrom 1 es, 1 + (es.flatMap Known2Entry.bytes).length⟩

/-- The hashsets of a store. -/
def known2Entries (bytes : Bytes) : List Known2Entry :=
  match scanKnown2Met bytes with
  | .error _ => []
  | .ok _ => wholeEntries (bytes.drop 1)

def writeKnown2Met (es : List Known2Entry) : Bytes :=
  KNOWN2_MET_VERSION :: es.flatMap Known2Entry.bytes

/-- `none` when the root is not there. -/
def removeKnown2Entry (bytes : Bytes) (root : Hash20) : Option Bytes := do
  let idx ← (scanKnown2Met bytes).toOption
  let _offset ← idx.byRoot.lookup root
  return writeKnown2Met ((known2Entries bytes).filter fun e => e.root ≠ root)

/-! ## Reading back -/

theorem nextEntry_append (e : Known2Entry) (rest : Bytes) :
    nextEntry (e.bytes ++ rest) = some (e, rest) := by
  have hlen : entryLen (e.bytes ++ rest) = e.bytes.length := by
    rw [entryLen_append e.header_le, e.whole]
  have hle : e.bytes.length ≤ (e.bytes ++ rest).length := by
    rw [List.length_append]
    exact Nat.le_add_right ..
  rw [nextEntry, dif_pos ⟨le_trans e.header_le hle, hlen ▸ hle⟩]
  simp only [hlen, List.take_left, List.drop_left]

/-- The walk ends where the tail is no whole hashset. -/
theorem entriesFrom_append {es : List Known2Entry} {tail : Bytes} {n : Nat}
    (htail : nextEntry tail = none) (h : es.length ≤ n) :
    entriesFrom n (es.flatMap Known2Entry.bytes ++ tail) = es := by
  induction es generalizing n with
  | nil =>
    cases n with
    | zero => rfl
    | succ n => rw [List.flatMap_nil, List.nil_append, entriesFrom, htail]
  | cons e es ih =>
    cases n with
    | zero => exact absurd h (Nat.not_succ_le_zero _)
    | succ n =>
      rw [List.flatMap_cons, List.append_assoc, entriesFrom, nextEntry_append]
      exact congrArg (e :: ·) (ih (Nat.le_of_succ_le_succ h))

theorem entriesFrom_flatMap {es : List Known2Entry} {n : Nat} (h : es.length ≤ n) :
    entriesFrom n (es.flatMap Known2Entry.bytes) = es := by
  have hnil : nextEntry [] = none := dif_neg (by decide)
  have happend := entriesFrom_append hnil h
  rwa [List.append_nil] at happend

theorem length_le_flatMap (es : List Known2Entry) :
    es.length ≤ (es.flatMap Known2Entry.bytes).length := by
  induction es with
  | nil => exact Nat.le_refl 0
  | cons e es ih =>
    have hpos : 1 ≤ e.bytes.length := le_trans (by decide) e.header_le
    rw [List.flatMap_cons, List.length_append, List.length_cons]
    omega

theorem known2Entries_write (es : List Known2Entry) : known2Entries (writeKnown2Met es) = es := by
  rw [writeKnown2Met, known2Entries, scanKnown2Met, if_neg (by simp)]
  exact entriesFrom_flatMap (length_le_flatMap es)

theorem scan_write (es : List Known2Entry) : scanKnown2Met (writeKnown2Met es) =
    .ok ⟨indexFrom 1 es, 1 + (es.flatMap Known2Entry.bytes).length⟩ := by
  have hwhole : wholeEntries (es.flatMap Known2Entry.bytes) = es :=
    entriesFrom_flatMap (length_le_flatMap es)
  rw [writeKnown2Met, scanKnown2Met, if_neg (by simp), hwhole]

theorem nextEntry_eq_some {rest rest' : Bytes} {e : Known2Entry}
    (h : nextEntry rest = some (e, rest')) : rest = e.bytes ++ rest' := by
  rw [nextEntry] at h
  split_ifs at h
  cases h
  exact (List.take_append_drop _ _).symm

/-- The hashsets of a walk are what it starts with. -/
theorem entriesFrom_isPrefix (n : Nat) (rest : Bytes) :
    (entriesFrom n rest).flatMap Known2Entry.bytes <+: rest := by
  induction n generalizing rest with
  | zero => exact List.nil_prefix
  | succ n ih =>
    rw [entriesFrom]
    cases hnext : nextEntry rest with
    | none => exact List.nil_prefix
    | some next =>
      rw [nextEntry_eq_some hnext, List.flatMap_cons]
      exact (List.prefix_append_right_inj _).mpr (ih next.2)

/-- What is whole of a store reads back as the same hashsets. -/
theorem take_validLen {bytes : Bytes} {idx : Known2Index} (h : scanKnown2Met bytes = .ok idx) :
    bytes.take idx.validLen = writeKnown2Met (known2Entries bytes) := by
  rw [known2Entries, h]
  cases bytes with
  | nil => cases h
  | cons version rest =>
    rw [scanKnown2Met] at h
    split at h
    · cases h
    · next hversion =>
      cases h
      have hwhole := List.prefix_iff_eq_take.mp (entriesFrom_isPrefix rest.length rest)
      rw [writeKnown2Met, Nat.add_comm, List.take_succ_cons, not_not.mp hversion]
      exact congrArg _ hwhole.symm

/-! ## Removing -/

/-- The index has the roots of the hashsets. -/
theorem mem_indexFrom {es : List Known2Entry} {r : Hash20} (pos : Nat) :
    r ∈ (indexFrom pos es).map Prod.fst ↔ r ∈ es.map Known2Entry.root := by
  induction es generalizing pos with
  | nil => rfl
  | cons e es ih =>
    rw [indexFrom, List.map_cons, List.map_cons, List.mem_cons, List.mem_cons,
      ← ih (pos + e.bytes.length)]
    by_cases hr : r = e.root
    · simp [hr]
    · have hfilter : (r ∈ ((indexFrom (pos + e.bytes.length) es).filter
          fun x => x.1 ≠ e.root).map Prod.fst) ↔
          r ∈ (indexFrom (pos + e.bytes.length) es).map Prod.fst := by
        simp only [List.mem_map, List.mem_filter]
        constructor
        · rintro ⟨x, ⟨hx, -⟩, hxr⟩
          exact ⟨x, hx, hxr⟩
        · rintro ⟨x, hx, hxr⟩
          exact ⟨x, ⟨hx, by simpa [hxr] using hr⟩, hxr⟩
      rw [hfilter]

theorem lookup_indexFrom_eq_none {es : List Known2Entry} {r : Hash20} {pos : Nat}
    (h : (indexFrom pos es).lookup r = none) : ∀ e ∈ es, e.root ≠ r := by
  intro e he heq
  have hmem : r ∈ (indexFrom pos es).map Prod.fst :=
    (mem_indexFrom pos).mpr (heq ▸ List.mem_map_of_mem he)
  obtain ⟨x, hx, hxr⟩ := List.mem_map.mp hmem
  have hne := List.lookup_eq_none_iff.mp h x hx
  exact bne_iff_ne.mp hne hxr.symm

theorem byRoot_of_scan {bytes : Bytes} {idx : Known2Index} (h : scanKnown2Met bytes = .ok idx) :
    idx.byRoot = indexFrom 1 (known2Entries bytes) := by
  rw [known2Entries, h]
  cases bytes with
  | nil => cases h
  | cons version rest =>
    rw [scanKnown2Met] at h
    split at h
    · cases h
    · cases h
      rfl

theorem root_ne_of_remove_eq_none {bytes : Bytes} {root : Hash20}
    (h : removeKnown2Entry bytes root = none) : ∀ e ∈ known2Entries bytes, e.root ≠ root := by
  cases hscan : scanKnown2Met bytes with
  | error err =>
    intro e he
    rw [known2Entries, hscan] at he
    exact absurd he List.not_mem_nil
  | ok idx =>
    have hlookup : idx.byRoot.lookup root = none := by
      rw [removeKnown2Entry, hscan] at h
      by_contra hfound
      obtain ⟨offset, hoffset⟩ := Option.ne_none_iff_exists'.mp hfound
      have hnone := Option.bind_eq_none_iff.mp (Option.bind_eq_none_iff.mp h idx rfl) offset hoffset
      cases hnone
    rw [byRoot_of_scan hscan] at hlookup
    exact lookup_indexFrom_eq_none hlookup

theorem eq_of_remove {bytes out : Bytes} {root : Hash20}
    (h : removeKnown2Entry bytes root = some out) :
    out = writeKnown2Met ((known2Entries bytes).filter fun e => e.root ≠ root) := by
  obtain ⟨idx, -, h⟩ := Option.bind_eq_some_iff.mp h
  obtain ⟨offset, -, h⟩ := Option.bind_eq_some_iff.mp h
  exact (Option.some.inj h).symm

/-- With the root or without it, what is left is the hashsets of the other roots. -/
theorem known2Entries_remove (bytes : Bytes) (root : Hash20) :
    known2Entries ((removeKnown2Entry bytes root).getD bytes) =
      (known2Entries bytes).filter fun e => e.root ≠ root := by
  cases hremove : removeKnown2Entry bytes root with
  | some out =>
    rw [eq_of_remove hremove, Option.getD_some, known2Entries_write]
  | none =>
    have hall := root_ne_of_remove_eq_none hremove
    rw [Option.getD_none, List.filter_eq_self.mpr fun e he => decide_eq_true (hall e he)]

end PadMule.Files
