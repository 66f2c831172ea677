import Mathlib.Data.List.Basic
import Mathlib.Tactic

/-
  Binary tries with bins at their leaves.

  A key is a sequence of bits. An element belongs into the leaf its key leads to, so whatever
  two leaves hold differs in its keys, and what is unique in every bin is unique in the trie
  (`nodup_toList`).
  `All` says something of every leaf and every inner vertex, each with its path from the root.
-/

/-- A leaf holds a bin, an inner vertex two halves; each of them carries a tag. -/
inductive BinTrie (τ α : Type*) where
  | leaf (tag : τ) (bin : List α)
  | node (tag : τ) (zero one : BinTrie τ α)
deriving DecidableEq

namespace BinTrie

variable {τ α β : Type*}

/-- All elements, leaf by leaf. -/
def toList : BinTrie τ α → List α
  | leaf _ bin => bin
  | node _ zero one => zero.toList ++ one.toList

/-- The vertex at the end of a path. -/
def sub : List Bool → BinTrie τ α → Option (BinTrie τ α)
  | [], t => some t
  | _ :: _, leaf .. => none
  | false :: p, node _ zero _ => zero.sub p
  | true :: p, node _ _ one => one.sub p

/-- The bin that the bits from `n` on lead to. -/
def leafAt (bits : Nat → Bool) : Nat → BinTrie τ α → List α
  | _, leaf _ bin => bin
  | n, node _ zero one =>
    match bits n with
    | false => zero.leafAt bits (n + 1)
    | true => one.leafAt bits (n + 1)

/-- `okLeaf` holds of every leaf, `okNode` of every inner vertex. -/
def All (okLeaf : List Bool → τ → List α → Prop) (okNode : List Bool → τ → Prop) :
    List Bool → BinTrie τ α → Prop
  | p, leaf tag bin => okLeaf p tag bin
  | p, node tag zero one =>
    okNode p tag ∧ All okLeaf okNode (p ++ [false]) zero ∧ All okLeaf okNode (p ++ [true]) one

/-- The bits start with the path. -/
def Follows (bits : Nat → Bool) (p : List Bool) : Prop := (List.range p.length).map bits = p

/-- Every element is where its key leads. -/
def Placed (key : α → Nat → Bool) : List Bool → BinTrie τ α → Prop :=
  All (fun p _ bin => ∀ a ∈ bin, Follows (key a) p) fun _ _ => True

theorem follows_nil (bits : Nat → Bool) : Follows bits [] := rfl

theorem follows_concat {bits : Nat → Bool} {p : List Bool} {b : Bool} :
    Follows bits (p ++ [b]) ↔ Follows bits p ∧ bits p.length = b := by
  unfold Follows
  rw [List.length_append, List.length_singleton, List.range_succ, List.map_append,
    List.map_singleton]
  constructor
  · intro h
    obtain ⟨hp, hb⟩ := List.append_inj h (by simp)
    exact ⟨hp, List.singleton_inj.mp hb⟩
  · rintro ⟨hp, hb⟩
    rw [hp, hb]

/-- The same trie up to its bins. -/
inductive Rel (R : List α → List α → Prop) : BinTrie τ α → BinTrie τ α → Prop where
  | leaf (tag : τ) {bin bin' : List α} (h : R bin bin') : Rel R (.leaf tag bin) (.leaf tag bin')
  | node (tag : τ) {zero zero' one one' : BinTrie τ α} (hz : Rel R zero zero')
      (ho : Rel R one one') : Rel R (.node tag zero one) (.node tag zero' one')

theorem Rel.refl {R : List α → List α → Prop} (hR : ∀ bin, R bin bin) (t : BinTrie τ α) :
    Rel R t t := by
  induction t with
  | leaf tag bin => exact .leaf tag (hR bin)
  | node tag zero one ihz iho => exact .node tag ihz iho

/-- Where the elements of each bin come from those of the old one, so do those of the trie. -/
theorem Rel.subperm {f : α → β} {t t' : BinTrie τ α}
    (h : Rel (fun bin bin' => (bin'.map f).Subperm (bin.map f)) t t') :
    (t'.toList.map f).Subperm (t.toList.map f) := by
  induction h with
  | leaf tag h => exact h
  | node tag hz ho ihz iho =>
    rw [toList, toList, List.map_append, List.map_append]
    exact ihz.append iho

section All

variable {L L' : List Bool → τ → List α → Prop} {N N' : List Bool → τ → Prop} {p : List Bool}
  {t : BinTrie τ α}

theorem All.imp (hL : ∀ p tag bin, L p tag bin → L' p tag bin) (hN : ∀ p tag, N p tag → N' p tag)
    (h : All L N p t) : All L' N' p t := by
  induction t generalizing p with
  | leaf tag bin => exact hL p tag bin h
  | node tag zero one ihz iho => exact ⟨hN p tag h.1, ihz h.2.1, iho h.2.2⟩

theorem All.rel {R : List α → List α → Prop} {t' : BinTrie τ α}
    (hR : ∀ p tag bin bin', R bin bin' → L p tag bin → L p tag bin') (hrel : Rel R t t')
    (h : All L N p t) : All L N p t' := by
  induction hrel generalizing p with
  | leaf tag hbin => exact hR p tag _ _ hbin h
  | node tag hz ho ihz iho => exact ⟨h.1, ihz h.2.1, iho h.2.2⟩

/-- `All` speaks of the vertices at the ends of all paths. -/
theorem All.sub (h : All L N p t) {q : List Bool} {s : BinTrie τ α} (hs : t.sub q = some s) :
    All L N (p ++ q) s := by
  induction q generalizing p t with
  | nil =>
    cases hs
    rwa [List.append_nil]
  | cons b q ih =>
    cases t with
    | leaf tag bin => cases hs
    | node tag zero one =>
      rw [List.append_cons]
      cases b with
      | false => exact ih h.2.1 hs
      | true => exact ih h.2.2 hs

end All

section Placed

variable {key : α → Nat → Bool} {p : List Bool} {t : BinTrie τ α}

theorem mem_toList_of_mem_leafAt {a : α} {bits : Nat → Bool} {n : Nat}
    (h : a ∈ t.leafAt bits n) : a ∈ t.toList := by
  induction t generalizing n with
  | leaf tag bin => exact h
  | node tag zero one ihz iho =>
    rw [leafAt] at h
    rw [toList, List.mem_append]
    cases hb : bits n with
    | false =>
      rw [hb] at h
      exact .inl (ihz h)
    | true =>
      rw [hb] at h
      exact .inr (iho h)

/-- Whatever a part of the trie holds has the path to that part in its key. -/
theorem Placed.follows (h : Placed key p t) {a : α} (ha : a ∈ t.toList) : Follows (key a) p := by
  induction t generalizing p with
  | leaf tag bin => exact h a ha
  | node tag zero one ihz iho =>
    rcases List.mem_append.mp ha with ha | ha
    · exact (follows_concat.mp (ihz h.2.1 ha)).1
    · exact (follows_concat.mp (iho h.2.2 ha)).1

/-- An element is found in the leaf its key leads to. -/
theorem Placed.mem_leafAt (h : Placed key p t) {a : α} (ha : a ∈ t.toList) :
    a ∈ t.leafAt (key a) p.length := by
  induction t generalizing p with
  | leaf tag bin => exact ha
  | node tag zero one ihz iho =>
    rw [leafAt]
    rcases List.mem_append.mp ha with ha | ha
    · rw [(follows_concat.mp (Placed.follows h.2.1 ha)).2]
      simpa using ihz h.2.1 ha
    · rw [(follows_concat.mp (Placed.follows h.2.2 ha)).2]
      simpa using iho h.2.2 ha

/-- What keys depend on is unique in the trie when it is unique in every bin. -/
theorem Placed.nodup_toList (h : Placed key p t) {g : α → β}
    (hkey : ∀ a ∈ t.toList, ∀ b ∈ t.toList, g a = g b → key a = key b)
    (hbins : All (fun _ _ bin => (bin.map g).Nodup) (fun _ (_ : τ) => True) p t) :
    (t.toList.map g).Nodup := by
  induction t generalizing p with
  | leaf tag bin => exact hbins
  | node tag zero one ihz iho =>
    have hzero := ihz h.2.1 (fun a ha b hb => hkey a (List.mem_append_left _ ha) b
      (List.mem_append_left _ hb)) hbins.2.1
    have hone := iho h.2.2 (fun a ha b hb => hkey a (List.mem_append_right _ ha) b
      (List.mem_append_right _ hb)) hbins.2.2
    rw [toList, List.map_append]
    refine List.Nodup.append hzero hone fun x hx hx' => ?_
    obtain ⟨a, ha, rfl⟩ := List.mem_map.mp hx
    obtain ⟨b, hb, heq⟩ := List.mem_map.mp hx'
    have hsame := hkey a (List.mem_append_left _ ha) b (List.mem_append_right _ hb) heq.symm
    have hfalse := (follows_concat.mp (Placed.follows h.2.1 ha)).2
    have htrue := (follows_concat.mp (Placed.follows h.2.2 hb)).2
    rw [hsame, htrue] at hfalse
    cases hfalse

end Placed

end BinTrie
