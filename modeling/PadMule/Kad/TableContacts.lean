import PadMule.Kad.Diversity

/-
  `mule-kad/src/routing.rs`: what the operations do to the contacts of the table.

  Up to their order the contacts are a set with one contact for each id. An add refuses, updates
  one of them or takes in a new one (`Added`); `set_alive`, `note_verify_key` and
  `verify_contact` touch up one (`Touched`); a sweep drops the dead, stamps the never-stamped and
  marks the probed ones (`Swept`).
-/

namespace PadMule.Kad

open PadMule.Proto BinTrie

/-! ## An update in place -/

namespace Contact

theorem replacing_of_ne {c old : Contact} (h : old.ip ≠ c.ip) : c.replacing old = c := by
  unfold replacing
  rw [if_neg h]

/-- On the same address the aging is carried over. -/
theorem replacing_age {c old : Contact} (h : old.ip = c.ip) :
    (c.replacing old).kadType = old.kadType ∧ (c.replacing old).expires = old.expires ∧
      (c.replacing old).lastTypeSet = old.lastTypeSet := by
  unfold replacing
  rw [if_pos h]
  exact ⟨rfl, rfl, rfl⟩

theorem replacing_verified {c old : Contact} (h : old.ip = c.ip) :
    (c.replacing old).verified = (c.verified || old.verified) := by
  unfold replacing
  rw [if_pos h]
  dsimp only
  split_ifs <;> rfl

/-- A keyless update on the same address keeps the key. -/
theorem replacing_key {c old : Contact} (h : old.ip = c.ip) (hkey : c.udpKey = 0) :
    (c.replacing old).udpKey = old.udpKey ∧ (c.replacing old).udpKeyIp = old.udpKeyIp := by
  unfold replacing
  rw [if_pos h]
  dsimp only
  rw [if_pos hkey]
  exact ⟨rfl, rfl⟩

theorem replacing_ports (c old : Contact) :
    (c.replacing old).udpPort = c.udpPort ∧ (c.replacing old).tcpPort = c.tcpPort := by
  unfold replacing
  dsimp only
  split_ifs <;> exact ⟨rfl, rfl⟩

/-- A keyless update that is not denied leaves a keyed contact its address. -/
theorem address_of_not_denies {c old : Contact} (hkey : c.udpKey = 0) (hold : old.udpKey ≠ 0)
    (h : old.denies c = false) : old.ip = c.ip ∧ old.udpPort = c.udpPort := by
  unfold denies at h
  rw [hkey] at h
  simpa [hold] using h

end Contact

/-! ## Queries -/

def MAX_CONTACTS_PER_IP : Nat := 1
def MAX_CONTACTS_PER_SUBNET : Nat := 10

namespace RoutingTable

def contains (t : RoutingTable) (id : Kad128) : Bool := t.contacts.any fun c => c.id = id

/-- The ip stored for an id. -/
def ipOf (t : RoutingTable) (id : Kad128) : Option UInt32 :=
  (t.contacts.find? fun c => c.id = id).map Contact.ip

/-- How many contacts share this very ip, and how many its /24. -/
def ipCounts (t : RoutingTable) (ip : UInt32) : Nat × Nat :=
  ((t.contacts.filter fun c => c.ip = ip).length,
    (t.contacts.filter fun c => net24 c.ip = net24 ip).length)

/-- A verified contact owns its id at its address. -/
def isAcceptableAnswer (t : RoutingTable) (id : Kad128) (ip : UInt32) (udpPort : UInt16) : Bool :=
  match t.contacts.find? fun c => c.id = id with
  | some known => if known.verified then known.ip = ip && known.udpPort = udpPort else true
  | none => true

/-- The verified contacts that nobody doubts, by distance to a target. -/
def closestTo (t : RoutingTable) (target : Kad128) (count : Nat) : List Contact :=
  ((t.contacts.filter fun c => c.verified && c.kadType ≤ KAD_TYPE_NEW).insertionSort
    fun a b => target.distance a.id ≤ target.distance b.id).take count

def closestToMaxType (t : RoutingTable) (target : Kad128) (count : Nat) (maxType : UInt8) :
    List Contact :=
  ((t.contacts.filter fun c => c.verified && c.kadType ≤ maxType).insertionSort
    fun a b => target.distance a.id ≤ target.distance b.id).take count

/-- What another node is told: nobody who never answered us. -/
def closestToServing (t : RoutingTable) (target : Kad128) (count : Nat) : List Contact :=
  t.closestToMaxType target count KAD_TYPE_ALIVE

/-- The key to echo to a contact, while it was minted against our address. -/
def verifyKeyFor (t : RoutingTable) (id : Kad128) (ip ourIp : UInt32) : UInt32 :=
  match t.contacts.find? fun c => c.id = id && c.ip = ip with
  | some c => if c.udpKey ≠ 0 && c.udpKeyIp = ourIp && ourIp ≠ 0 then c.udpKey else 0
  | none => 0

theorem closestTo_eq (t : RoutingTable) (target : Kad128) (count : Nat) :
    t.closestTo target count = t.closestToMaxType target count KAD_TYPE_NEW := rfl

theorem mem_closestToMaxType {t : RoutingTable} {target : Kad128} {count : Nat} {maxType : UInt8}
    {c : Contact} (h : c ∈ t.closestToMaxType target count maxType) :
    c ∈ t.contacts ∧ c.verified = true ∧ c.kadType ≤ maxType := by
  have hmem := (List.perm_insertionSort _ _).subset (List.mem_of_mem_take h)
  obtain ⟨hc, hkept⟩ := List.mem_filter.mp hmem
  rw [Bool.and_eq_true, decide_eq_true_eq] at hkept
  exact ⟨hc, hkept⟩

theorem ipCounts_eq (t : RoutingTable) (ip : UInt32) :
    t.ipCounts ip = (t.countIps (· = ip), t.countIps (net24 · = net24 ip)) := by
  unfold ipCounts countIps
  rw [List.countP_map, List.countP_map, List.countP_eq_length_filter, List.countP_eq_length_filter]
  rfl

/-- An id has one contact. -/
theorem Shaped.find_eq {t : RoutingTable} (h : t.Shaped) {c : Contact} (hc : c ∈ t.contacts) :
    (t.contacts.find? fun o => o.id = c.id) = some c := by
  cases hfind : t.contacts.find? fun o => o.id = c.id with
  | none => exact absurd (decide_eq_true rfl) (List.find?_eq_none.mp hfind c hc)
  | some o =>
    have hid : o.id = c.id := by simpa using List.find?_some hfind
    rw [h.eq_of_id (List.mem_of_find?_eq_some hfind) hc hid]

theorem ipOf_ne_of_not_holds {t : RoutingTable} {id : Kad128} {ip : UInt32}
    (h : t.holds id ip = false) : t.ipOf id ≠ some ip := by
  intro heq
  obtain ⟨c, hfind, hip⟩ := Option.map_eq_some_iff.mp heq
  have hid : c.id = id := by simpa using List.find?_some hfind
  have hheld := List.any_eq_false.mp h c (List.mem_of_find?_eq_some hfind)
  exact hheld (by simp [hid, hip])

end RoutingTable

/-! ## An add -/

namespace RoutingTable

/-- What an add does to the contacts of the table. -/
inductive Added (t : RoutingTable) (s : Sighting) : Bool → List Contact → Prop where
  | refused {all : List Contact} (h : all.Perm t.contacts) : Added t s false all
  | updated {old : Contact} {rest all : List Contact} (hall : t.contacts.Perm (old :: rest))
      (hid : old.id = s.id) (hfree : old.denies (t.contact s) = false)
      (h : all.Perm ((t.contact s).replacing old :: rest)) : Added t s true all
  | inserted {all : List Contact} (hnew : ∀ o ∈ t.contacts, o.id ≠ s.id)
      (h : all.Perm (t.contact s :: t.contacts)) : Added t s true all

variable {t : RoutingTable} {s : Sighting}

/-- An add that is accepted was not denied. -/
theorem Shaped.not_denies (h : t.Shaped) (hadd : (t.root.add (t.contact s) t.starved).1 = true)
    {old : Contact} (hold : old ∈ t.contacts) (hid : old.id = s.id) :
    old.denies (t.contact s) = false := by
  have hlanded := h.landed (s := s)
  have hbin : old ∈ t.binOf s.id := hid ▸ h.mem_binOf hold
  rw [hadd] at hlanded
  generalize (t.root.add (t.contact s) t.starved).2.leafAt (t.contact s).bits 0 = bin' at hlanded
  cases hlanded with
  | @replaced pre post old' hbins hid' hdenies =>
    have hmem : old' ∈ t.binOf s.id := by
      rw [hbins]
      simp
    cases h.eq_of_id hold (mem_contacts_of_mem_binOf hmem) (hid.trans hid'.symm)
    exact hdenies
  | pushed hpart hnew => exact absurd hid (hnew old hbin)

theorem Shaped.added (h : t.Shaped) (s : Sighting) :
    Added t s (t.add s).1 (t.add s).2.contacts := by
  rcases t.add_cases s with ⟨-, heq⟩ | ⟨hfits, -, heq⟩
  · rw [heq]
    exact .refused (List.Perm.refl _)
  · have htook : Zone.Took (t.contact s) t.contacts _ _ := h.took hfits
    have hfree (hadd : (t.root.add (t.contact s) t.starved).1 = true) {old : Contact}
        (hold : old ∈ t.contacts) := h.not_denies hadd hold
    rw [heq]
    dsimp only [contacts] at htook ⊢
    generalize (t.root.add (t.contact s) t.starved).1 = b at htook hfree
    cases htook with
    | refused hperm => exact .refused hperm
    | @replaced old rest _ hall hid hperm =>
      exact .updated hall hid (hfree rfl (hall.symm.subset (List.mem_cons_self ..)) hid) hperm
    | inserted hnew hperm => exact .inserted hnew hperm

/-- What is in the table after an add. -/
theorem Shaped.mem_add (h : t.Shaped) {c : Contact} (hc : c ∈ (t.add s).2.contacts) :
    (c ∈ t.contacts ∧ (c.id = s.id → (t.add s).1 = false)) ∨
      ((t.add s).1 = true ∧ ∃ old ∈ t.contacts, old.id = s.id ∧
        old.denies (t.contact s) = false ∧ c = (t.contact s).replacing old) ∨
      ((t.add s).1 = true ∧ (∀ o ∈ t.contacts, o.id ≠ s.id) ∧ c = t.contact s) := by
  have hadded := h.added s
  generalize (t.add s).1 = b at hadded ⊢
  generalize (t.add s).2.contacts = all at hadded hc
  cases hadded with
  | refused hperm => exact .inl ⟨hperm.subset hc, fun _ => rfl⟩
  | @updated old rest _ hall hid hfree hperm =>
    have hold : old ∈ t.contacts := hall.symm.subset (List.mem_cons_self ..)
    rcases List.mem_cons.mp (hperm.subset hc) with rfl | hrest
    · exact .inr (.inl ⟨rfl, old, hold, hid, hfree, rfl⟩)
    · refine .inl ⟨hall.symm.subset (List.mem_cons_of_mem _ hrest), fun heq => ?_⟩
      have hnodup := (hall.map Contact.id).nodup_iff.mp h.wellFormed.ids
      rw [List.map_cons, List.nodup_cons] at hnodup
      exact absurd (List.mem_map.mpr ⟨c, hrest, heq.trans hid.symm⟩) hnodup.1
  | inserted hnew hperm =>
    rcases List.mem_cons.mp (hperm.subset hc) with rfl | hold
    · exact .inr (.inr ⟨rfl, hnew, rfl⟩)
    · exact .inl ⟨hold, fun heq => absurd heq (hnew c hold)⟩

/-- No contact is lost to an add. -/
theorem Shaped.add_keeps (h : t.Shaped) (s : Sighting) {c : Contact} (hc : c ∈ t.contacts) :
    c ∈ (t.add s).2.contacts ∨ (c.id = s.id ∧ (t.add s).1 = true ∧
      c.denies (t.contact s) = false ∧ (t.contact s).replacing c ∈ (t.add s).2.contacts) := by
  have hadded := h.added s
  generalize (t.add s).1 = b at hadded ⊢
  generalize (t.add s).2.contacts = all at hadded ⊢
  cases hadded with
  | refused hperm => exact .inl (hperm.symm.subset hc)
  | @updated old rest _ hall hid hfree hperm =>
    rcases List.mem_cons.mp (hall.subset hc) with rfl | hrest
    · exact .inr ⟨hid, rfl, hfree, hperm.symm.subset (List.mem_cons_self ..)⟩
    · exact .inl (hperm.symm.subset (List.mem_cons_of_mem _ hrest))
  | inserted hnew hperm => exact .inl (hperm.symm.subset (List.mem_cons_of_mem _ hc))

end RoutingTable

/-! ## An operation on one contact -/

namespace Zone

/-- The first contact with the id becomes `f` of it; without one nothing happens. -/
inductive Touched (id : Kad128) (f : Contact → Contact) (all all' : List Contact) :
    Bool → Prop where
  | missed (h : all' = all) (hnone : ∀ o ∈ all, o.id ≠ id) : Touched id f all all' false
  | found {o : Contact} {rest : List Contact} (hid : o.id = id) (hall : all.Perm (o :: rest))
      (h : all'.Perm (f o :: rest)) : Touched id f all all' true

theorem Touched.mem {id : Kad128} {f : Contact → Contact} {all all' : List Contact} {b : Bool}
    (h : Touched id f all all' b) (hnodup : (all.map Contact.id).Nodup) {c : Contact}
    (hc : c ∈ all') : (c ∈ all ∧ c.id ≠ id) ∨ ∃ o ∈ all, o.id = id ∧ c = f o := by
  cases h with
  | missed hsame hnone =>
    subst hsame
    exact .inl ⟨hc, hnone c hc⟩
  | @found o rest hid hall hperm =>
    rcases List.mem_cons.mp (hperm.subset hc) with rfl | hrest
    · exact .inr ⟨o, hall.symm.subset (List.mem_cons_self ..), hid, rfl⟩
    · refine .inl ⟨hall.symm.subset (List.mem_cons_of_mem _ hrest), fun heq => ?_⟩
      have hnodup := (hall.map Contact.id).nodup_iff.mp hnodup
      rw [List.map_cons, List.nodup_cons] at hnodup
      exact hnodup.1 (List.mem_map.mpr ⟨c, hrest, heq.trans hid.symm⟩)

theorem Touched.keeps {id : Kad128} {f : Contact → Contact} {all all' : List Contact} {b : Bool}
    (h : Touched id f all all' b) {c : Contact} (hc : c ∈ all) :
    c ∈ all' ∨ (c.id = id ∧ f c ∈ all') := by
  cases h with
  | missed hsame hnone => exact .inl (hsame ▸ hc)
  | @found o rest hid hall hperm =>
    rcases List.mem_cons.mp (hall.subset hc) with rfl | hrest
    · exact .inr ⟨hid, hperm.symm.subset (List.mem_cons_self ..)⟩
    · exact .inl (hperm.symm.subset (List.mem_cons_of_mem _ hrest))

theorem touched_search {id : Kad128} {f : Contact → Contact} {op : Zone → Bool × Zone}
    (hleaf : ∀ z bin, Touched id f bin (op (.leaf z bin)).2.toList (op (.leaf z bin)).1)
    (hnode : ∀ z zero one, op (.node z zero one) =
      if (op zero).1 then (true, .node z (op zero).2 one)
      else ((op one).1, .node z (op zero).2 (op one).2)) (t : Zone) :
    Touched id f t.toList (op t).2.toList (op t).1 := by
  induction t with
  | leaf z bin => exact hleaf z bin
  | node z zero one ihz iho =>
    rw [hnode]
    generalize op zero = rz at ihz ⊢
    obtain ⟨bz, zero'⟩ := rz
    cases ihz with
    | found hid hall h =>
      exact .found hid (hall.append_right one.toList) (h.append_right one.toList)
    | missed hsame hnone =>
      generalize op one = ro at iho ⊢
      obtain ⟨bo, one'⟩ := ro
      dsimp only at hsame iho ⊢
      cases iho with
      | found hid hall h =>
        refine .found hid ((hall.append_left zero.toList).trans List.perm_middle) ?_
        show (zero'.toList ++ one'.toList).Perm _
        rw [hsame]
        exact (h.append_left zero.toList).trans List.perm_middle
      | missed hsame' hnone' =>
        refine .missed ?_ fun o ho => ?_
        · show zero'.toList ++ one'.toList = zero.toList ++ one.toList
          rw [hsame, hsame']
        · exact (List.mem_append.mp ho).elim (hnone o) (hnone' o)

theorem touched_setAlive (id : Kad128) (now : UInt64) (t : Zone) :
    Touched id (fun c => { c with
      kadType := KAD_TYPE_ALIVE
      expires := some (now + ALIVE_LEASE_SECS)
      lastTypeSet := now }) t.toList (setAlive id now t).2.toList (setAlive id now t).1 := by
  refine touched_search (fun z bin => ?_) (fun _ _ _ => rfl) t
  rw [setAlive]
  cases hfind : bin.find? fun c => c.id = id with
  | none => exact .missed rfl (by simpa using hfind)
  | some c =>
    obtain ⟨hc, pre, post, rfl, hpre⟩ := List.find?_eq_some_iff_append.mp hfind
    have herase : (pre ++ c :: post).eraseP (fun c => c.id = id) = pre ++ post := by
      rw [List.eraseP_append_right _ fun o ho => by simpa using hpre o ho,
        List.eraseP_cons_of_pos (by exact hc)]
    refine .found (of_decide_eq_true hc) List.perm_middle ?_
    dsimp only [toList]
    rw [herase]
    exact List.perm_append_singleton _ _

theorem touched_alter (id : Kad128) (f : Contact → Contact) (t : Zone) :
    Touched id f t.toList (alter id f t).2.toList (alter id f t).1 := by
  refine touched_search (fun z bin => ?_) (fun _ _ _ => rfl) t
  rw [alter]
  cases hpos : bin.findIdx? fun c => c.id = id with
  | none => exact .missed rfl (by simpa using hpos)
  | some pos =>
    obtain ⟨pre, old, post, rfl, -, hfind, hmodify⟩ := Slots.modify_of_findIdx? hpos f
    have hid : old.id = id := by simpa using List.find?_some hfind
    refine .found hid List.perm_middle ?_
    dsimp only [toList]
    rw [hmodify]
    exact List.perm_middle

/-- Whether a removal found anything. -/
theorem remove_fst (id : Kad128) (t : Zone) :
    (remove id t).1 = t.toList.any fun c => c.id = id := by
  induction t with
  | leaf z bin =>
    rw [remove, toList, Bool.eq_iff_iff, decide_eq_true_eq, List.any_eq_true, Ne,
      List.length_filter_eq_length_iff]
    simp
  | node z zero one ihz iho =>
    rw [remove, toList, List.any_append, ← ihz, ← iho]
    dsimp only
    cases (remove id zero).1 <;> rfl

theorem toList_remove (id : Kad128) {t : Zone} (h : (t.toList.map Contact.id).Nodup) :
    (remove id t).2.toList = t.toList.filter fun c => c.id ≠ id := by
  induction t with
  | leaf z bin => rfl
  | node z zero one ihz iho =>
    have hfst := remove_fst id zero
    rw [toList, List.map_append, List.nodup_append'] at h
    obtain ⟨hzero, hone, hdisjoint⟩ := h
    rw [remove, toList, List.filter_append, ← ihz hzero, ← iho hone]
    dsimp only
    split_ifs with hfound
    · rw [hfst, List.any_eq_true] at hfound
      obtain ⟨o, ho, hid⟩ := hfound
      have hnone : ∀ o' ∈ one.toList, o'.id ≠ id := fun o' ho' hid' =>
        hdisjoint (List.mem_map_of_mem ho)
          (List.mem_map.mpr ⟨o', ho', hid'.trans (of_decide_eq_true hid).symm⟩)
      rw [toList, iho hone, List.filter_eq_self.mpr (by simpa using hnone)]
    · rfl

end Zone

/-! ## A sweep -/

/-- A contact that was never stamped is stamped by a sweep. -/
def Contact.aged (now : UInt64) (c : Contact) : Contact :=
  if c.expires = none then { c with expires := some now } else c

/-- A contact that was probed at `now`. -/
def Contact.marked (now : UInt64) (c : Contact) : Contact :=
  { c with
    lastTypeSet := now
    expires := some (now + PROBE_WINDOW_SECS)
    kadType := Zone.bumped c.kadType }

/-- When the oldest contact of a bin is probed. -/
structure Contact.Due (now : UInt64) (c : Contact) : Prop where
  free : c.kadType ≠ KAD_TYPE_PROBED
  past : ∀ e, c.expires = some e → e < now
  gap : CHECKING_TYPE_MIN_GAP ≤ now - min c.lastTypeSet now

namespace Zone

/-- What a sweep does to a list of contacts, and what it adds to the outcome. -/
structure Swept (now : UInt64) (maxProbes : Nat) (all : List Contact) (out : SweepOutcome)
    (r : List Contact × SweepOutcome) : Prop where
  removed : r.2.removed = out.removed ++ (all.filter (dead now)).map Contact.id
  ids : (r.1.map Contact.id).Perm ((all.filter fun c => !dead now c).map Contact.id)
  kept : ∀ c' ∈ r.1, ∃ c ∈ all, dead now c = false ∧ (c' = c.aged now ∨
    (c.aged now).Due now ∧ c' = (c.aged now).marked now ∧ c' ∈ r.2.probes)
  probes : ∃ new, r.2.probes = out.probes ++ new ∧ ∀ p ∈ new, p ∈ r.1 ∧ ∃ c ∈ all,
    dead now c = false ∧ (c.aged now).Due now ∧ p = (c.aged now).marked now
  count : r.2.probes.length ≤ max out.probes.length maxProbes

theorem probeFront_cases (now : UInt64) (c : Contact) (bin : List Contact) (out : SweepOutcome) :
    ((probeFront now c bin out).1.Perm (c :: bin) ∧ (probeFront now c bin out).2 = out) ∨
      (c.Due now ∧ probeFront now c bin out =
        (c.marked now :: bin, { out with probes := out.probes ++ [c.marked now] })) := by
  unfold probeFront
  split_ifs with hpending hgap
  · exact .inl ⟨List.perm_append_singleton c bin, rfl⟩
  · exact .inl ⟨List.Perm.refl _, rfl⟩
  · rw [Bool.or_eq_true, not_or, decide_eq_true_eq] at hpending
    refine .inr ⟨⟨hpending.2, fun e he => ?_, UInt64.not_lt.mp hgap⟩, rfl⟩
    have hpast := hpending.1
    rw [he, Option.any_some, decide_eq_true_eq] at hpast
    exact UInt64.not_le.mp hpast

theorem id_aged (now : UInt64) (c : Contact) : (c.aged now).id = c.id := by
  unfold Contact.aged
  split_ifs <;> rfl

theorem swept_sweepBin (now : UInt64) (maxProbes : Nat) (bin : List Contact) (out : SweepOutcome) :
    Swept now maxProbes bin out (sweepBin now maxProbes bin out) := by
  have hkept : ((bin.filter fun c => !dead now c).map fun c =>
      if c.expires = none then { c with expires := some now } else c) =
      (bin.filter fun c => !dead now c).map (Contact.aged now) := rfl
  have hids : ((bin.filter fun c => !dead now c).map (Contact.aged now)).map Contact.id =
      (bin.filter fun c => !dead now c).map Contact.id := by
    rw [List.map_map]
    exact List.map_congr_left fun c _ => id_aged now c
  have hfrom : ∀ c' ∈ (bin.filter fun c => !dead now c).map (Contact.aged now),
      ∃ c ∈ bin, dead now c = false ∧ c' = c.aged now := by
    intro c' hc'
    obtain ⟨c, hc, rfl⟩ := List.mem_map.mp hc'
    obtain ⟨hc, hlive⟩ := List.mem_filter.mp hc
    exact ⟨c, hc, by simpa using hlive, rfl⟩
  unfold sweepBin
  dsimp only
  rw [hkept]
  generalize (bin.filter fun c => !dead now c).map (Contact.aged now) = kept at hids hfrom
  cases kept with
  | nil =>
    exact ⟨rfl, hids ▸ List.Perm.refl _, fun c' hc' => absurd hc' List.not_mem_nil,
      ⟨[], by simp, fun p hp => absurd hp List.not_mem_nil⟩, Nat.le_max_left _ _⟩
  | cons c rest =>
    have hsame {bin' : List Contact} (hperm : bin'.Perm (c :: rest)) :
        Swept now maxProbes bin out (bin', { out with
          removed := out.removed ++ (bin.filter (dead now)).map Contact.id }) := by
      refine ⟨rfl, hids ▸ hperm.map _, fun c' hc' => ?_, ⟨[], by simp, fun p hp => ?_⟩,
        Nat.le_max_left _ _⟩
      · obtain ⟨o, ho, hlive, rfl⟩ := hfrom c' (hperm.subset hc')
        exact ⟨o, ho, hlive, .inl rfl⟩
      · exact absurd hp List.not_mem_nil
    dsimp only
    split_ifs with hcap
    · exact hsame (List.Perm.refl _)
    · generalize hout : ({ out with
          removed := out.removed ++ (bin.filter (dead now)).map Contact.id } : SweepOutcome) = out'
        at hsame
      rcases probeFront_cases now c rest out' with ⟨hperm, houtcome⟩ | ⟨hdue, heq⟩
      · have heq : probeFront now c rest out' = ((probeFront now c rest out').1, out') :=
          Prod.ext rfl houtcome
        rw [heq]
        exact hsame hperm
      · obtain ⟨o, ho, hlive, hage⟩ := hfrom c (List.mem_cons_self ..)
        rw [heq, ← hout]
        refine ⟨rfl, hids ▸ List.Perm.refl _, fun c' hc' => ?_,
          ⟨[c.marked now], rfl, fun p hp => ?_⟩, ?_⟩
        · rcases List.mem_cons.mp hc' with rfl | hrest
          · exact ⟨o, ho, hlive, .inr ⟨hage ▸ hdue, hage ▸ rfl, by simp⟩⟩
          · obtain ⟨o', ho', hlive', rfl⟩ := hfrom c' (List.mem_cons_of_mem _ hrest)
            exact ⟨o', ho', hlive', .inl rfl⟩
        · rw [List.mem_singleton.mp hp]
          exact ⟨List.mem_cons_self .., o, ho, hlive, hage ▸ hdue, hage ▸ rfl⟩
        · rw [List.length_append, List.length_singleton]
          exact (Nat.lt_of_not_le hcap).trans_le (Nat.le_max_right _ _)

theorem swept_sweep (now : UInt64) (maxProbes : Nat) (t : Zone) (out : SweepOutcome) :
    Swept now maxProbes t.toList out
      ((sweep now maxProbes t out).1.toList, (sweep now maxProbes t out).2) := by
  induction t generalizing out with
  | leaf z bin => exact swept_sweepBin now maxProbes bin out
  | node z zero one ihz iho =>
    have hzero := ihz out
    have hone := iho (sweep now maxProbes zero out).2
    obtain ⟨new, hnew, hprobed⟩ := hzero.probes
    obtain ⟨new', hnew', hprobed'⟩ := hone.probes
    rw [sweep]
    dsimp only [toList] at hzero hone hnew hnew' hprobed hprobed' ⊢
    refine ⟨?_, ?_, fun c' hc' => ?_, ⟨new ++ new', ?_, fun p hp => ?_⟩, ?_⟩
    · dsimp only
      rw [hone.removed, hzero.removed, List.filter_append, List.map_append, List.append_assoc]
    · dsimp only
      rw [List.filter_append, List.map_append, List.map_append]
      exact hzero.ids.append hone.ids
    · rcases List.mem_append.mp hc' with hz | ho
      · obtain ⟨c, hc, hlive, hcases⟩ := hzero.kept c' hz
        refine ⟨c, List.mem_append_left _ hc, hlive, hcases.imp_right fun hmarked => ?_⟩
        refine ⟨hmarked.1, hmarked.2.1, ?_⟩
        rw [hnew']
        exact List.mem_append_left _ hmarked.2.2
      · obtain ⟨c, hc, hlive, hcases⟩ := hone.kept c' ho
        exact ⟨c, List.mem_append_right _ hc, hlive, hcases⟩
    · rw [hnew', hnew, List.append_assoc]
    · rcases List.mem_append.mp hp with hz | ho
      · obtain ⟨hmem, c, hc, hrest⟩ := hprobed p hz
        exact ⟨List.mem_append_left _ hmem, c, List.mem_append_left _ hc, hrest⟩
      · obtain ⟨hmem, c, hc, hrest⟩ := hprobed' p ho
        exact ⟨List.mem_append_right _ hmem, c, List.mem_append_right _ hc, hrest⟩
    · exact hone.count.trans (max_le hzero.count (Nat.le_max_right _ _))

end Zone

end PadMule.Kad
