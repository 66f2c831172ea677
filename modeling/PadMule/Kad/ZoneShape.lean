import PadMule.Kad.RoutingZone
import PadMule.Lib.BitPath
import PadMule.Lib.Slots

/-
  `mule-kad/src/routing.rs`: the shape of a zone.

  `Zone.Ok` is the representation invariant: every vertex is tagged with the length and the
  number of its path, an inner one was allowed to split, and a bin holds at most `K` contacts of
  different ids, each of them below its own distance.
  `Adds` says once what an add can do, with the number of calls it takes; the other operations
  shrink bins or touch up their contacts (`Shrinks`).
-/

namespace PadMule.Kad

open PadMule.Proto BinTrie BitPath

/-! ## The invariant -/

namespace Contact

/-- A contact that is not ourselves, speaks Kad2 and has its distance to us. -/
structure Fits (selfId : Kad128) (c : Contact) : Prop where
  foreign : c.id ≠ selfId
  version : 1 < c.version
  distance_eq : c.distance = selfId.distance c.id

/-- What an update of a contact in place never changes. -/
def core (c : Contact) : Kad128 × UInt32 × UInt8 × Kad128 := (c.id, c.ip, c.version, c.distance)

theorem fits_congr {selfId : Kad128} {c c' : Contact} (h : c'.core = c.core) (hc : c.Fits selfId) :
    c'.Fits selfId := by
  simp only [core, Prod.mk.injEq] at h
  obtain ⟨hid, -, hversion, hdistance⟩ := h
  exact ⟨hid ▸ hc.foreign, hversion ▸ hc.version, by rw [hdistance, hid, hc.distance_eq]⟩

theorem bits_congr {c c' : Contact} (h : c'.core = c.core) : c'.bits = c.bits := by
  simp only [core, Prod.mk.injEq] at h
  unfold bits
  rw [h.2.2.2]

/-- The id decides the way down. -/
theorem bits_eq {selfId : Kad128} {c c' : Contact} (hc : c.Fits selfId) (hc' : c'.Fits selfId)
    (h : c.id = c'.id) : c.bits = c'.bits := by
  unfold bits
  rw [hc.distance_eq, hc'.distance_eq, h]

theorem replacing_fields (c old : Contact) :
    (c.replacing old).id = c.id ∧ (c.replacing old).ip = c.ip ∧
      (c.replacing old).version = c.version ∧ (c.replacing old).distance = c.distance := by
  unfold replacing
  dsimp only
  split_ifs with hip hkey
  · exact ⟨rfl, rfl, rfl, rfl⟩
  · exact ⟨rfl, rfl, rfl, rfl⟩
  · exact ⟨rfl, rfl, rfl, rfl⟩

@[simp] theorem core_replacing (c old : Contact) : (c.replacing old).core = c.core := by
  obtain ⟨hid, hip, hversion, hdistance⟩ := c.replacing_fields old
  unfold core
  rw [hid, hip, hversion, hdistance]

end Contact

namespace Zone

structure BinOk (selfId : Kad128) (p : List Bool) (z : ZoneTag) (bin : List Contact) : Prop where
  level_eq : z.level = p.length
  index_eq : z.index = BitPath.bits p
  level_le : z.level ≤ MAXLEVELS
  length_le : bin.length ≤ K
  nodup : (bin.map Contact.id).Nodup
  fits : ∀ c ∈ bin, c.Fits selfId
  follows : ∀ c ∈ bin, Follows c.bits p

structure NodeOk (p : List Bool) (z : ZoneTag) : Prop where
  level_eq : z.level = p.length
  index_eq : z.index = BitPath.bits p
  canSplit : z.canSplit = true

def Ok (selfId : Kad128) : List Bool → Zone → Prop := All (BinOk selfId) NodeOk

/-! ## Splitting -/

theorem level_lt_of_canSplit {z : ZoneTag} (h : z.canSplit = true) : z.level < MAXLEVELS := by
  unfold ZoneTag.canSplit at h
  rw [Bool.and_eq_true, decide_eq_true_eq] at h
  exact h.1

theorem index_half {z : ZoneTag} {p : List Bool} (hindex : z.index = BitPath.bits p)
    (hlevel : p.length < MAXLEVELS) (b : Bool) : (z.half b).index = BitPath.bits (p ++ [b]) := by
  have hlt : z.index < 2 ^ 127 := by
    rw [hindex]
    exact (bits_lt p).trans (Nat.pow_lt_pow_right (by decide) hlevel)
  have hbit : b.toNat < 2 ^ 1 := by cases b <;> decide
  have hbits : BitPath.bits (p ++ [b]) = 2 * BitPath.bits p + b.toNat := by
    unfold BitPath.bits
    rw [extend_append]
    rfl
  have hshift : z.index <<< 1 = 2 * z.index := by
    rw [Nat.shiftLeft_eq]
    omega
  unfold ZoneTag.half
  dsimp only
  rw [Nat.mod_eq_of_lt (by omega), ← Nat.shiftLeft_add_eq_or_of_lt hbit, hbits, ← hindex, hshift]

theorem BinOk.half {selfId : Kad128} {p : List Bool} {z : ZoneTag} {bin bin' : List Contact}
    (h : BinOk selfId p z bin) (hsplit : z.canSplit = true) (hsub : bin'.Sublist bin) {b : Bool}
    (hb : ∀ c ∈ bin', c.bits z.level = b) : BinOk selfId (p ++ [b]) (z.half b) bin' where
  level_eq := by
    rw [List.length_append, List.length_singleton, ← h.level_eq]
    rfl
  index_eq := index_half h.index_eq (h.level_eq ▸ level_lt_of_canSplit hsplit) b
  level_le := level_lt_of_canSplit hsplit
  length_le := hsub.length_le.trans h.length_le
  nodup := h.nodup.sublist (hsub.map _)
  fits c hc := h.fits c (hsub.subset hc)
  follows c hc := follows_concat.mpr ⟨h.follows c (hsub.subset hc), h.level_eq ▸ hb c hc⟩

theorem Ok.split {selfId : Kad128} {p : List Bool} {z : ZoneTag} {bin : List Contact}
    (h : BinOk selfId p z bin) (hsplit : z.canSplit = true) : Ok selfId p (split z bin) := by
  refine ⟨⟨h.level_eq, h.index_eq, hsplit⟩, h.half hsplit List.filter_sublist fun c hc => ?_,
    h.half hsplit List.filter_sublist fun c hc => ?_⟩
  · simpa using (List.mem_filter.mp hc).2
  · exact (List.mem_filter.mp hc).2

/-! ## What an add does -/

/-- An add of `c` that takes `n` calls, and what it returns. -/
inductive Adds (c : Contact) (starved : Bool) : Nat → Zone → Bool × Zone → Prop where
  | zero {n : Nat} {z : ZoneTag} {zero : Zone} (one : Zone) {r : Bool × Zone}
      (hbit : c.bits z.level = false) (h : Adds c starved n zero r) :
      Adds c starved (n + 1) (.node z zero one) (r.1, .node z r.2 one)
  | one {n : Nat} {z : ZoneTag} (zero : Zone) {one : Zone} {r : Bool × Zone}
      (hbit : c.bits z.level = true) (h : Adds c starved n one r) :
      Adds c starved (n + 1) (.node z zero one) (r.1, .node z zero r.2)
  | denied (z : ZoneTag) {bin : List Contact} {old : Contact} (hold : old ∈ bin)
      (hid : old.id = c.id) (hdenies : old.denies c = true) :
      Adds c starved 1 (.leaf z bin) (false, .leaf z bin)
  | replaced (z : ZoneTag) (pre post : List Contact) {old : Contact} (hid : old.id = c.id)
      (hdenies : old.denies c = false) :
      Adds c starved 1 (.leaf z (pre ++ old :: post))
        (true, .leaf z (pre ++ c.replacing old :: post))
  | capped (z : ZoneTag) {bin : List Contact} (hnew : ∀ o ∈ bin, o.id ≠ c.id)
      (hroom : bin.length < K) (hstarved : starved = false)
      (hcap : subnetCapped bin c.ip = true) :
      Adds c starved 1 (.leaf z bin) (false, .leaf z bin)
  | pushed (z : ZoneTag) {bin : List Contact} (hnew : ∀ o ∈ bin, o.id ≠ c.id)
      (hroom : bin.length < K) (hcap : starved = false → subnetCapped bin c.ip = false) :
      Adds c starved 1 (.leaf z bin) (true, .leaf z (bin ++ [c]))
  | split {n : Nat} {z : ZoneTag} {bin : List Contact} {r : Bool × Zone}
      (hnew : ∀ o ∈ bin, o.id ≠ c.id) (hfull : K ≤ bin.length) (hsplit : z.canSplit = true)
      (h : Adds c starved n (Zone.split z bin) r) : Adds c starved (n + 1) (.leaf z bin) r
  | full (z : ZoneTag) {bin : List Contact} (hnew : ∀ o ∈ bin, o.id ≠ c.id)
      (hfull : K ≤ bin.length) (hsplit : z.canSplit = false) :
      Adds c starved 1 (.leaf z bin) (false, .leaf z bin)

variable {selfId : Kad128} {c : Contact} {starved : Bool} {p : List Bool}

theorem known_of_findIdx? {bin : List Contact} {id : Kad128} {pos : Nat}
    (h : (bin.findIdx? fun o => o.id = id) = some pos) :
    ∃ old ∈ bin, old.id = id ∧ bin[pos]? = some old := by
  obtain ⟨hlt, hid, -⟩ := List.findIdx?_eq_some_iff_getElem.mp h
  exact ⟨bin[pos], List.getElem_mem hlt, by simpa using hid, List.getElem?_eq_getElem hlt⟩

/-- Every add ends, after at most `bound` calls. -/
theorem adds_add (c : Contact) (starved : Bool) (t : Zone) :
    ∃ n ≤ bound t, Adds c starved n t (add c starved t) := by
  have hleaf (z : ZoneTag) (bin : List Contact) : 1 ≤ bound (.leaf z bin) := Nat.le_add_left 1 _
  fun_induction add c starved t with
  | case1 z zero one hbit r ih =>
    obtain ⟨n, hn, hadds⟩ := ih
    exact ⟨n + 1, Nat.succ_le_succ (hn.trans (Nat.le_max_left _ _)), .zero one hbit hadds⟩
  | case2 z zero one hbit r ih =>
    obtain ⟨n, hn, hadds⟩ := ih
    exact ⟨n + 1, Nat.succ_le_succ (hn.trans (Nat.le_max_right _ _)),
      .one zero (by simpa using hbit) hadds⟩
  | case3 z bin pos hpos hdenies =>
    obtain ⟨old, hold, hid, hget⟩ := known_of_findIdx? hpos
    rw [hget, Option.any_some] at hdenies
    exact ⟨1, hleaf z bin, .denied z hold hid hdenies⟩
  | case4 z bin pos hpos hdenies =>
    obtain ⟨pre, old, post, rfl, -, hfind, hmodify⟩ := Slots.modify_of_findIdx? hpos c.replacing
    obtain ⟨old', -, hid, hget⟩ := known_of_findIdx? hpos
    rw [List.find?_eq_bind_findIdx?_getElem?, hpos, Option.bind_some, hget] at hfind
    cases hfind
    rw [hget, Option.any_some, Bool.not_eq_true] at hdenies
    rw [hmodify]
    exact ⟨1, hleaf z _, .replaced z pre post hid hdenies⟩
  | case5 z bin hpos hroom hcap =>
    rw [Bool.and_eq_true, Bool.not_eq_true'] at hcap
    exact ⟨1, hleaf z bin, .capped z (by simpa using hpos) hroom hcap.1 hcap.2⟩
  | case6 z bin hpos hroom hcap =>
    refine ⟨1, hleaf z bin, .pushed z (by simpa using hpos) hroom fun hstarved => ?_⟩
    simpa [hstarved] using hcap
  | case7 z bin hpos hfull hsplit ih =>
    obtain ⟨n, hn, hadds⟩ := ih
    exact ⟨n + 1, Nat.succ_le_of_lt (hn.trans_lt (bound_split hsplit bin)),
      .split (by simpa using hpos) (Nat.le_of_not_lt hfull) hsplit hadds⟩
  | case8 z bin hpos hfull hsplit =>
    exact ⟨1, hleaf z bin, .full z (by simpa using hpos) (Nat.le_of_not_lt hfull)
      (by simpa using hsplit)⟩

theorem Ok.bound_le {t : Zone} (h : Ok selfId p t) :
    bound t ≤ 2 * (MAXLEVELS - p.length) + 1 := by
  induction t generalizing p with
  | leaf z bin =>
    have hlevel := BinOk.level_eq h
    rw [bound, hlevel]
  | node z zero one ihz iho =>
    have hlt := level_lt_of_canSplit h.1.canSplit
    have hzero := ihz h.2.1
    have hone := iho h.2.2
    rw [h.1.level_eq] at hlt
    rw [List.length_append, List.length_singleton] at hzero hone
    rw [bound]
    omega

/-! ## An add keeps the shape -/

theorem BinOk.replace {z : ZoneTag} {pre post : List Contact} {old c' : Contact}
    (h : BinOk selfId p z (pre ++ old :: post)) (hid : c'.id = old.id) (hc : c'.Fits selfId) :
    BinOk selfId p z (pre ++ c' :: post) where
  level_eq := h.level_eq
  index_eq := h.index_eq
  level_le := h.level_le
  length_le := by simpa using h.length_le
  nodup := by simpa [hid] using h.nodup
  fits o ho := by
    rcases List.mem_append.mp ho with ho | ho
    · exact h.fits o (List.mem_append_left _ ho)
    · rcases List.mem_cons.mp ho with rfl | ho
      · exact hc
      · exact h.fits o (List.mem_append_right _ (List.mem_cons_of_mem _ ho))
  follows o ho := by
    rcases List.mem_append.mp ho with ho | ho
    · exact h.follows o (List.mem_append_left _ ho)
    · rcases List.mem_cons.mp ho with rfl | ho
      · have hold : old ∈ pre ++ old :: post := by simp
        rw [Contact.bits_eq hc (h.fits old hold) hid]
        exact h.follows old hold
      · exact h.follows o (List.mem_append_right _ (List.mem_cons_of_mem _ ho))

theorem BinOk.push {z : ZoneTag} {bin : List Contact} (h : BinOk selfId p z bin)
    (hroom : bin.length < K) (hnew : ∀ o ∈ bin, o.id ≠ c.id) (hc : c.Fits selfId)
    (hp : Follows c.bits p) : BinOk selfId p z (bin ++ [c]) where
  level_eq := h.level_eq
  index_eq := h.index_eq
  level_le := h.level_le
  length_le := by simpa using hroom
  nodup := by
    rw [List.map_append, List.map_singleton]
    refine List.Nodup.append h.nodup (List.nodup_singleton _) fun x hx hx' => ?_
    obtain ⟨o, ho, rfl⟩ := List.mem_map.mp hx
    exact hnew o ho (List.mem_singleton.mp hx')
  fits o ho := by
    rcases List.mem_append.mp ho with ho | ho
    · exact h.fits o ho
    · rwa [List.mem_singleton.mp ho]
  follows o ho := by
    rcases List.mem_append.mp ho with ho | ho
    · exact h.follows o ho
    · rwa [List.mem_singleton.mp ho]

theorem Adds.ok {n : Nat} {t : Zone} {r : Bool × Zone} (hadds : Adds c starved n t r)
    (h : Ok selfId p t) (hc : c.Fits selfId) (hp : Follows c.bits p) : Ok selfId p r.2 := by
  induction hadds generalizing p with
  | @zero n z zero one r hbit hr ih =>
    obtain ⟨hnode, hzero, hone⟩ := h
    have hbit' : c.bits p.length = false := hnode.level_eq ▸ hbit
    exact ⟨hnode, ih hzero (follows_concat.mpr ⟨hp, hbit'⟩), hone⟩
  | @one n z zero one r hbit hr ih =>
    obtain ⟨hnode, hzero, hone⟩ := h
    have hbit' : c.bits p.length = true := hnode.level_eq ▸ hbit
    exact ⟨hnode, hzero, ih hone (follows_concat.mpr ⟨hp, hbit'⟩)⟩
  | denied => exact h
  | @replaced z pre post old hid hdenies =>
    obtain ⟨hid', -, -, -⟩ := c.replacing_fields old
    exact BinOk.replace h (hid'.trans hid.symm) (Contact.fits_congr (c.core_replacing old) hc)
  | capped => exact h
  | pushed z hnew hroom hcap => exact BinOk.push h hroom hnew hc hp
  | split hnew hfull hsplit hr ih => exact ih (Ok.split h hsplit) hp
  | full => exact h

/-! ## Where an add lands -/

/-- What becomes of the bin that `c` leads to, or of the part of it that is left after splits. -/
inductive Landed (c : Contact) (starved : Bool) (bin : List Contact) :
    Bool → List Contact → Prop where
  | denied {old : Contact} (hold : old ∈ bin) (hid : old.id = c.id) (hdenies : old.denies c = true) :
    Landed c starved bin false bin
  | replaced (pre post : List Contact) {old : Contact} (hbin : bin = pre ++ old :: post)
      (hid : old.id = c.id) (hdenies : old.denies c = false) :
    Landed c starved bin true (pre ++ c.replacing old :: post)
  | refused {part : List Contact} (hpart : part.Sublist bin) (hnew : ∀ o ∈ bin, o.id ≠ c.id) :
    Landed c starved bin false part
  | pushed {part : List Contact} (hpart : part.Sublist bin) (hnew : ∀ o ∈ bin, o.id ≠ c.id)
      (hcap : starved = false → subnetCapped part c.ip = false) :
    Landed c starved bin true (part ++ [c])

theorem Landed.of_part {bin part bin' : List Contact} {b : Bool} (hpart : part.Sublist bin)
    (hnew : ∀ o ∈ bin, o.id ≠ c.id) (h : Landed c starved part b bin') :
    Landed c starved bin b bin' := by
  cases h with
  | denied hold hid => exact absurd hid (hnew _ (hpart.subset hold))
  | replaced pre post hbin hid =>
    exact absurd hid (hnew _ (hpart.subset (hbin ▸ by simp)))
  | refused hsub => exact .refused (hsub.trans hpart) hnew
  | pushed hsub _ hcap => exact .pushed (hsub.trans hpart) hnew hcap

theorem leafAt_split_sublist (z : ZoneTag) (bin : List Contact) (bits : Nat → Bool) (n : Nat) :
    ((split z bin).leafAt bits n).Sublist bin := by
  unfold split leafAt
  cases bits n with
  | false => exact List.filter_sublist
  | true => exact List.filter_sublist

theorem Adds.landed {n : Nat} {t : Zone} {r : Bool × Zone} (hadds : Adds c starved n t r)
    (h : Ok selfId p t) :
    Landed c starved (t.leafAt c.bits p.length) r.1 (r.2.leafAt c.bits p.length) := by
  induction hadds generalizing p with
  | @zero n z zero one r hbit hr ih =>
    have hbit' : c.bits p.length = false := h.1.level_eq ▸ hbit
    have hzero := ih h.2.1
    rw [List.length_append, List.length_singleton] at hzero
    simp only [leafAt, hbit']
    exact hzero
  | @one n z zero one r hbit hr ih =>
    have hbit' : c.bits p.length = true := h.1.level_eq ▸ hbit
    have hone := ih h.2.2
    rw [List.length_append, List.length_singleton] at hone
    simp only [leafAt, hbit']
    exact hone
  | denied z hold hid hdenies => exact .denied hold hid hdenies
  | replaced z pre post hid hdenies => exact .replaced pre post rfl hid hdenies
  | capped z hnew => exact .refused (List.Sublist.refl _) hnew
  | pushed z hnew hroom hcap => exact .pushed (List.Sublist.refl _) hnew hcap
  | split hnew hfull hsplit hr ih =>
    exact (ih (Ok.split h hsplit)).of_part (leafAt_split_sublist _ _ _ _) hnew
  | full z hnew => exact .refused (List.Sublist.refl _) hnew

/-- Any other bin is what it was, or a part of it. -/
theorem Adds.elsewhere {n : Nat} {t : Zone} {r : Bool × Zone} (hadds : Adds c starved n t r)
    (h : Ok selfId p t) (bits : Nat → Bool) :
    (t.leafAt bits p.length = t.leafAt c.bits p.length ∧
      r.2.leafAt bits p.length = r.2.leafAt c.bits p.length) ∨
      (r.2.leafAt bits p.length).Sublist (t.leafAt bits p.length) := by
  induction hadds generalizing p with
  | @zero n z zero one r hbit hr ih =>
    have hbit' : c.bits p.length = false := h.1.level_eq ▸ hbit
    have hzero := ih h.2.1
    rw [List.length_append, List.length_singleton] at hzero
    simp only [leafAt, hbit']
    cases bits p.length with
    | false => exact hzero
    | true => exact .inr (List.Sublist.refl _)
  | @one n z zero one r hbit hr ih =>
    have hbit' : c.bits p.length = true := h.1.level_eq ▸ hbit
    have hone := ih h.2.2
    rw [List.length_append, List.length_singleton] at hone
    simp only [leafAt, hbit']
    cases bits p.length with
    | false => exact .inr (List.Sublist.refl _)
    | true => exact hone
  | denied => exact .inl ⟨rfl, rfl⟩
  | replaced => exact .inl ⟨rfl, rfl⟩
  | capped => exact .inl ⟨rfl, rfl⟩
  | pushed => exact .inl ⟨rfl, rfl⟩
  | split hnew hfull hsplit hr ih =>
    rcases ih (Ok.split h hsplit) with ⟨-, hsame⟩ | hsub
    · exact .inl ⟨rfl, hsame⟩
    · exact .inr (hsub.trans (leafAt_split_sublist _ _ _ _))
  | full => exact .inl ⟨rfl, rfl⟩

/-! ## What an add does to the contacts -/

inductive Took (c : Contact) (all : List Contact) : Bool → List Contact → Prop where
  | refused {all' : List Contact} (h : all'.Perm all) : Took c all false all'
  | replaced {old : Contact} {rest all' : List Contact} (hall : all.Perm (old :: rest))
      (hid : old.id = c.id) (h : all'.Perm (c.replacing old :: rest)) : Took c all true all'
  | inserted {all' : List Contact} (hnew : ∀ o ∈ all, o.id ≠ c.id) (h : all'.Perm (c :: all)) :
    Took c all true all'

theorem Took.perm {all all₁ all' all₁' : List Contact} {b : Bool} (h : Took c all b all')
    (hall : all₁.Perm all) (hall' : all₁'.Perm all') : Took c all₁ b all₁' := by
  cases h with
  | refused h => exact .refused (hall'.trans (h.trans hall.symm))
  | replaced hold hid h => exact .replaced (hall.trans hold) hid (hall'.trans h)
  | inserted hnew h =>
    exact .inserted (fun o ho => hnew o (hall.subset ho)) (hall'.trans (h.trans (hall.symm.cons c)))

theorem Took.append {all all' rest : List Contact} {b : Bool} (h : Took c all b all')
    (hrest : ∀ o ∈ rest, o.id ≠ c.id) : Took c (all ++ rest) b (all' ++ rest) := by
  cases h with
  | refused h => exact .refused (h.append_right rest)
  | replaced hold hid h => exact .replaced (hold.append_right rest) hid (h.append_right rest)
  | inserted hnew h =>
    refine .inserted (fun o ho => ?_) (h.append_right rest)
    exact (List.mem_append.mp ho).elim (hnew o) (hrest o)

theorem Ok.placed {t : Zone} (h : Ok selfId p t) : Placed Contact.bits p t :=
  h.imp (fun _ _ _ hbin => hbin.follows) fun _ _ _ => trivial

theorem Ok.fits {t : Zone} (h : Ok selfId p t) : ∀ o ∈ t.toList, o.Fits selfId := by
  induction t generalizing p with
  | leaf z bin => exact BinOk.fits h
  | node z zero one ihz iho =>
    intro o ho
    rcases List.mem_append.mp ho with ho | ho
    · exact ihz h.2.1 o ho
    · exact iho h.2.2 o ho

/-- The half that `c` does not lead into knows nothing of it. -/
theorem Ok.unknown {t : Zone} {b : Bool} (h : Ok selfId (p ++ [b]) t) (hc : c.Fits selfId)
    (hb : c.bits p.length = !b) : ∀ o ∈ t.toList, o.id ≠ c.id := by
  intro o ho hid
  have hbit := (follows_concat.mp (Ok.placed h |>.follows ho)).2
  rw [Contact.bits_eq (Ok.fits h o ho) hc hid, hb] at hbit
  cases b <;> cases hbit

theorem Adds.took {n : Nat} {t : Zone} {r : Bool × Zone} (hadds : Adds c starved n t r)
    (h : Ok selfId p t) (hc : c.Fits selfId) : Took c t.toList r.1 r.2.toList := by
  induction hadds generalizing p with
  | @zero n z zero one r hbit hr ih =>
    have hbit' : c.bits p.length = false := h.1.level_eq ▸ hbit
    exact (ih h.2.1).append (Ok.unknown h.2.2 hc hbit')
  | @one n z zero one r hbit hr ih =>
    have hbit' : c.bits p.length = true := h.1.level_eq ▸ hbit
    have hone := (ih h.2.2).append (Ok.unknown h.2.1 hc hbit')
    exact hone.perm List.perm_append_comm List.perm_append_comm
  | denied => exact .refused (List.Perm.refl _)
  | replaced z pre post hid hdenies =>
    exact .replaced List.perm_middle hid List.perm_middle
  | capped => exact .refused (List.Perm.refl _)
  | pushed z hnew hroom hcap => exact .inserted hnew (List.perm_append_singleton _ _)
  | @split n z bin r hnew hfull hsplit hr ih =>
    have hperm : bin.Perm (Zone.split z bin).toList := by
      have hboth := List.filter_append_perm (fun o : Contact => o.bits z.level) bin
      exact (List.perm_append_comm.trans hboth).symm
    exact (ih (Ok.split h hsplit)).perm hperm (List.Perm.refl _)
  | full => exact .refused (List.Perm.refl _)

/-! ## The other operations -/

/-- Contacts go, move inside their bin or change in what is not their core. -/
def Shrinks (bin bin' : List Contact) : Prop :=
  (bin'.map Contact.core).Subperm (bin.map Contact.core)

theorem Shrinks.refl (bin : List Contact) : Shrinks bin bin := List.Subperm.refl _

theorem BinOk.shrinks {z : ZoneTag} {bin bin' : List Contact} (hbins : Shrinks bin bin')
    (h : BinOk selfId p z bin) : BinOk selfId p z bin' := by
  have hfrom : ∀ o ∈ bin', ∃ o' ∈ bin, o.core = o'.core := fun o ho => by
    obtain ⟨o', ho', heq⟩ := List.mem_map.mp (hbins.subset (List.mem_map_of_mem ho))
    exact ⟨o', ho', heq.symm⟩
  obtain ⟨cores, hperm, hsub⟩ := hbins
  have hids : (bin'.map Contact.id).Nodup := by
    have hbin : ((bin.map Contact.core).map Prod.fst).Nodup := by
      rw [List.map_map]
      exact h.nodup
    have hbin' := (hperm.map Prod.fst).nodup_iff.mp (hbin.sublist (hsub.map Prod.fst))
    rwa [List.map_map] at hbin'
  refine ⟨h.level_eq, h.index_eq, h.level_le, ?_, ?_, fun o ho => ?_, fun o ho => ?_⟩
  · have hlen := hperm.length_eq ▸ hsub.length_le
    rw [List.length_map, List.length_map] at hlen
    exact hlen.trans h.length_le
  · exact hids
  · obtain ⟨o', ho', heq⟩ := hfrom o ho
    exact Contact.fits_congr heq (h.fits o' ho')
  · obtain ⟨o', ho', heq⟩ := hfrom o ho
    rw [Contact.bits_congr heq]
    exact h.follows o' ho'

theorem Ok.shrinks {t t' : Zone} (h : Ok selfId p t) (hrel : Rel Shrinks t t') : Ok selfId p t' :=
  All.rel (fun _ _ _ _ => BinOk.shrinks) hrel h

/-- An operation that ends at the first half in which it finds its contact. -/
theorem rel_search {op : Zone → Bool × Zone}
    (hleaf : ∀ z bin, Rel Shrinks (.leaf z bin) (op (.leaf z bin)).2)
    (hnode : ∀ z zero one, op (.node z zero one) =
      if (op zero).1 then (true, .node z (op zero).2 one)
      else ((op one).1, .node z (op zero).2 (op one).2)) (t : Zone) : Rel Shrinks t (op t).2 := by
  induction t with
  | leaf z bin => exact hleaf z bin
  | node z zero one ihz iho =>
    rw [hnode]
    split_ifs with hfound
    · exact .node z ihz (.refl Shrinks.refl one)
    · exact .node z ihz iho

theorem rel_setAlive (id : Kad128) (now : UInt64) (t : Zone) :
    Rel Shrinks t (setAlive id now t).2 := by
  refine rel_search (fun z bin => ?_) (fun _ _ _ => rfl) t
  rw [setAlive]
  cases hfind : bin.find? fun c => c.id = id with
  | none => exact .refl Shrinks.refl _
  | some c =>
    refine .leaf z (List.Perm.subperm ?_)
    obtain ⟨hc, pre, post, rfl, hpre⟩ := List.find?_eq_some_iff_append.mp hfind
    have herase : (pre ++ c :: post).eraseP (fun c => c.id = id) = pre ++ post := by
      rw [List.eraseP_append_right _ fun o ho => by simpa using hpre o ho,
        List.eraseP_cons_of_pos (by exact hc)]
    rw [herase, List.map_append, List.map_append, List.map_append]
    exact (List.perm_append_singleton _ _).trans List.perm_middle.symm

theorem rel_remove (id : Kad128) (t : Zone) : Rel Shrinks t (remove id t).2 :=
  @rel_search (remove id) (fun z _ => .leaf z (List.filter_sublist.map _).subperm)
    (fun _ _ _ => rfl) t

theorem rel_alter (id : Kad128) {f : Contact → Contact} (hf : ∀ c, (f c).core = c.core)
    (t : Zone) : Rel Shrinks t (alter id f t).2 := by
  refine rel_search (fun z bin => ?_) (fun _ _ _ => rfl) t
  rw [alter]
  cases hpos : bin.findIdx? fun c => c.id = id with
  | none => exact .refl Shrinks.refl _
  | some pos =>
    obtain ⟨pre, old, post, rfl, -, -, hmodify⟩ := Slots.modify_of_findIdx? hpos f
    refine .leaf z (List.Perm.subperm ?_)
    rw [hmodify]
    simp [hf]

theorem shrinks_probeFront (now : UInt64) (c : Contact) (bin : List Contact) (out : SweepOutcome) :
    Shrinks (c :: bin) (probeFront now c bin out).1 := by
  unfold probeFront
  dsimp only
  split_ifs
  · exact ((List.perm_append_singleton c bin).map _).subperm
  · exact .refl _
  · exact .refl _

theorem shrinks_sweepBin (now : UInt64) (maxProbes : Nat) (bin : List Contact)
    (out : SweepOutcome) : Shrinks bin (sweepBin now maxProbes bin out).1 := by
  have hkept : Shrinks bin ((bin.filter fun c => !dead now c).map fun c =>
      if c.expires = none then { c with expires := some now } else c) := by
    unfold Shrinks
    rw [List.map_map]
    have hcore : (Contact.core ∘ fun c : Contact =>
        if c.expires = none then { c with expires := some now } else c) = Contact.core := by
      funext c
      dsimp only [Function.comp]
      split_ifs <;> rfl
    rw [hcore]
    exact (List.filter_sublist.map _).subperm
  unfold sweepBin
  dsimp only
  split
  · exact List.nil_subperm
  · rename_i c rest heq
    rw [heq] at hkept
    split_ifs
    · exact hkept
    · exact (shrinks_probeFront now c rest _).trans hkept

theorem rel_sweep (now : UInt64) (maxProbes : Nat) (t : Zone) (out : SweepOutcome) :
    Rel Shrinks t (sweep now maxProbes t out).1 := by
  induction t generalizing out with
  | leaf z bin => exact .leaf z (shrinks_sweepBin now maxProbes bin out)
  | node z zero one ihz iho => exact .node z (ihz out) (iho _)

end Zone

end PadMule.Kad
