import PadMule.Kad.Eviction

/-
  `mule-kad/src/routing.rs`: what `load_nodes` makes of a list of records.

  A record goes through an ordinary add, and its key is noted where it has one. So a table that
  knows the contact may refuse the record, and at the same ip it keeps its own proof, and its own
  key where the record has none: `carries_iff` says when the record arrives as it is. A table that
  does not know the contact takes the record as it is or not at all (`loadNodes_new`).
-/

namespace PadMule.Kad

open PadMule.Proto BinTrie

/-- The contact as a record of `nodes.dat`. -/
def Contact.record (c : Contact) : KadContact :=
  ⟨c.id, c.ip, c.udpPort, c.tcpPort, c.version, c.udpKey, c.udpKeyIp, c.verified⟩

namespace KadContact

def sighting (c : KadContact) : Sighting :=
  ⟨c.id, c.ip, c.udpPort, c.tcpPort, c.version, c.verified⟩

/-- The same fields, but for the ip of a key that is none. -/
structure Agrees (c c' : KadContact) : Prop where
  id : c'.id = c.id
  ip : c'.ip = c.ip
  udpPort : c'.udpPort = c.udpPort
  tcpPort : c'.tcpPort = c.tcpPort
  version : c'.version = c.version
  verified : c'.verified = c.verified
  udpKey : c'.udpKey = c.udpKey
  udpKeyIp : c.udpKey ≠ 0 → c'.udpKeyIp = c.udpKeyIp

theorem Agrees.refl (c : KadContact) : c.Agrees c :=
  ⟨rfl, rfl, rfl, rfl, rfl, rfl, rfl, fun _ => rfl⟩

end KadContact

namespace RoutingTable

variable {t : RoutingTable} {s : Sighting} {c : KadContact} {o : Contact}

/-! ## One add -/

theorem Shaped.mem_add_of_ne (h : t.Shaped) (hne : o.id ≠ s.id) :
    o ∈ (t.add s).2.contacts ↔ o ∈ t.contacts := by
  refine ⟨fun ho => ?_, fun ho => ?_⟩
  · rcases h.mem_add ho with ⟨ho, -⟩ | ⟨-, old, -, -, -, rfl⟩ | ⟨-, -, rfl⟩
    · exact ho
    · exact absurd ((t.contact s).replacing_fields old).1 hne
    · exact absurd rfl hne
  · rcases h.add_keeps s ho with ho | ⟨hid, -⟩
    · exact ho
    · exact absurd hid hne

/-- A refused add changes nothing but the order. -/
theorem Shaped.mem_add_of_refused (h : t.Shaped) (hadd : (t.add s).1 = false) :
    o ∈ (t.add s).2.contacts ↔ o ∈ t.contacts := by
  have hadded := h.added s
  rw [hadd] at hadded
  generalize (t.add s).2.contacts = all at hadded ⊢
  cases hadded with
  | refused hperm => exact hperm.mem_iff

/-- A sighting of a contact where the table has it is accepted. -/
theorem Shaped.add_refresh (h : t.Shaped) (ho : o ∈ t.contacts) (hid : o.id = s.id)
    (hip : o.ip = s.ip) (hport : o.udpPort = s.udpPort) (hversion : 1 < s.version) :
    (t.add s).1 = true := by
  have hfree : o.denies (t.contact s) = false := by
    unfold Contact.denies
    have hip' : o.ip = (t.contact s).ip := hip
    have hport' : o.udpPort = (t.contact s).udpPort := hport
    simp [hip', hport']
  rcases t.add_cases s with ⟨hself | hold | hfull, -⟩ | ⟨-, -, heq⟩
  · exact absurd (hid.trans hself) (h.wellFormed.foreign o ho).1
  · exact absurd hversion (UInt8.not_lt.mpr hold)
  · have hheld : t.holds s.id s.ip = true := by
      rw [holds, List.any_eq_true]
      exact ⟨o, ho, by simp [hid, hip]⟩
    simp [slash16Full, hheld] at hfull
  · rw [heq]
    have hlanded := h.landed (s := s)
    have hbin : o ∈ t.binOf s.id := hid ▸ h.mem_binOf ho
    dsimp only
    generalize (t.root.add (t.contact s) t.starved).1 = b at hlanded ⊢
    generalize (t.root.add (t.contact s) t.starved).2.leafAt (t.contact s).bits 0 = bin' at hlanded
    cases hlanded with
    | @denied old hold hid' hdenies =>
      cases h.eq_of_id ho (mem_contacts_of_mem_binOf hold) (hid.trans hid'.symm)
      exact absurd (hfree.symm.trans hdenies) (by decide)
    | replaced => rfl
    | refused _ hnew => exact absurd hid (hnew o hbin)
    | pushed => rfl

/-- What the contact of an accepted add has besides the sighting: what the table knew of it at
    this ip. -/
inductive Merged (t : RoutingTable) (s : Sighting) (n : Contact) : Prop where
  | known {old : Contact} (hold : old ∈ t.contacts) (hid : old.id = s.id) (hip : old.ip = s.ip)
      (hverified : n.verified = (s.verified || old.verified)) (hkey : n.udpKey = old.udpKey)
  | alone (hnone : ∀ old ∈ t.contacts, old.id = s.id → old.ip ≠ s.ip)
      (hverified : n.verified = s.verified) (hkey : n.udpKey = 0)

theorem Shaped.merged (h : t.Shaped) (hadd : (t.add s).1 = true) :
    ∃ n ∈ (t.add s).2.contacts, n.id = s.id ∧ n.ip = s.ip ∧ n.udpPort = s.udpPort ∧
      n.tcpPort = s.tcpPort ∧ n.version = s.version ∧ Merged t s n := by
  have hadded := h.added s
  rw [hadd] at hadded
  generalize (t.add s).2.contacts = all at hadded ⊢
  cases hadded with
  | @updated old rest _ hall hid hfree hperm =>
    have hold : old ∈ t.contacts := hall.symm.subset (List.mem_cons_self ..)
    obtain ⟨hid', hip', hversion, -⟩ := (t.contact s).replacing_fields old
    obtain ⟨hudp, htcp⟩ := (t.contact s).replacing_ports old
    refine ⟨_, hperm.symm.subset (List.mem_cons_self ..), hid', hip', hudp, htcp, hversion, ?_⟩
    by_cases hip : old.ip = s.ip
    · exact .known hold hid hip (Contact.replacing_verified hip) (Contact.replacing_key hip rfl).1
    · rw [Contact.replacing_of_ne hip]
      refine .alone (fun old' hold' hid' => ?_) rfl rfl
      cases h.eq_of_id hold hold' (hid.trans hid'.symm)
      exact hip
  | inserted hnew hperm =>
    refine ⟨_, hperm.symm.subset (List.mem_cons_self ..), rfl, rfl, rfl, rfl, rfl, ?_⟩
    exact .alone (fun old hold hid => absurd hid (hnew old hold)) rfl rfl

/-! ## A note of a key -/

theorem mem_note_of_ne {id : Kad128} {ip key keyIp : UInt32} (h : t.Shaped) (hne : o.id ≠ id) :
    o ∈ (t.noteVerifyKey id ip key keyIp).contacts ↔ o ∈ t.contacts := by
  refine ⟨fun ho => ?_, fun ho => ?_⟩
  · rcases (Zone.touched_alter id _ t.root).mem h.wellFormed.ids ho with ⟨ho, -⟩ | ⟨o', -, hid, heq⟩
    · exact ho
    · refine absurd ?_ hne
      rw [heq]
      split_ifs <;> exact hid
  · rcases (Zone.touched_alter id _ t.root).keeps ho with ho | ⟨hid, -⟩
    · exact ho
    · exact absurd hid hne

/-- The contact is given the key. -/
theorem Shaped.noted (h : t.Shaped) (ho : o ∈ t.contacts) (key keyIp : UInt32) :
    { o with udpKey := key, udpKeyIp := keyIp } ∈
      (t.noteVerifyKey o.id o.ip key keyIp).contacts := by
  have htouched := Zone.touched_alter o.id
    (fun c => if c.ip = o.ip then { c with udpKey := key, udpKeyIp := keyIp } else c) t.root
  show _ ∈ (t.root.alter o.id _).2.toList
  generalize (t.root.alter o.id _).2.toList = all at htouched ⊢
  generalize (t.root.alter o.id _).1 = b at htouched
  cases htouched with
  | missed _ hnone => exact absurd rfl (hnone o ho)
  | @found o' rest hid hall hperm =>
    cases h.eq_of_id (hall.symm.subset (List.mem_cons_self ..)) ho hid
    have hmem := hperm.symm.subset (List.mem_cons_self ..)
    rwa [if_pos rfl] at hmem

theorem note_absent {id : Kad128} (hnone : ∀ o ∈ t.contacts, o.id ≠ id) (ip key keyIp : UInt32) :
    (t.noteVerifyKey id ip key keyIp).contacts = t.contacts := by
  have htouched := Zone.touched_alter id
    (fun c => if c.ip = ip then { c with udpKey := key, udpKeyIp := keyIp } else c) t.root
  show (t.root.alter id _).2.toList = t.root.toList
  generalize (t.root.alter id _).2.toList = all at htouched ⊢
  generalize (t.root.alter id _).1 = b at htouched
  cases htouched with
  | missed hsame => exact hsame
  | found hid hall => exact absurd hid (hnone _ (hall.symm.subset (List.mem_cons_self ..)))

/-- A note changes no field but the key. -/
theorem mem_note {id : Kad128} {ip key keyIp : UInt32} (h : t.Shaped)
    (ho : o ∈ (t.noteVerifyKey id ip key keyIp).contacts) : ∃ o' ∈ t.contacts, o'.id = o.id ∧
      o'.ip = o.ip ∧ o'.udpPort = o.udpPort ∧ o'.version = o.version := by
  rcases (Zone.touched_alter id _ t.root).mem h.wellFormed.ids ho with ⟨ho, -⟩ | ⟨o', ho', -, rfl⟩
  · exact ⟨o, ho, rfl, rfl, rfl, rfl⟩
  · refine ⟨o', ho', ?_⟩
    split_ifs <;> exact ⟨rfl, rfl, rfl, rfl⟩

/-! ## One record -/

/-- The table takes the record, and knows of no proof and no key that the record does not have. -/
structure Carries (t : RoutingTable) (c : KadContact) : Prop where
  admitted : (t.add c.sighting).1 = true
  proof : ∀ old ∈ t.contacts, old.id = c.id → old.ip = c.ip → old.verified = true →
    c.verified = true
  key : ∀ old ∈ t.contacts, old.id = c.id → old.ip = c.ip → c.udpKey = 0 → old.udpKey = 0

instance (t : RoutingTable) (c : KadContact) : Decidable (t.Carries c) :=
  decidable_of_iff ((t.add c.sighting).1 = true ∧
      (∀ old ∈ t.contacts, old.id = c.id → old.ip = c.ip → old.verified = true →
        c.verified = true) ∧
      ∀ old ∈ t.contacts, old.id = c.id → old.ip = c.ip → c.udpKey = 0 → old.udpKey = 0)
    ⟨fun h => ⟨h.1, h.2.1, h.2.2⟩, fun h => ⟨h.admitted, h.proof, h.key⟩⟩

theorem loadNode_eq (t : RoutingTable) (c : KadContact) : t.loadNode c =
    if c.udpKey ≠ 0 then (t.add c.sighting).2.noteVerifyKey c.id c.ip c.udpKey c.udpKeyIp
    else (t.add c.sighting).2 := rfl

theorem Shaped.mem_loadNode_of_ne (h : t.Shaped) (hne : o.id ≠ c.id) :
    o ∈ (t.loadNode c).contacts ↔ o ∈ t.contacts := by
  have hadd : o ∈ (t.add c.sighting).2.contacts ↔ _ := h.mem_add_of_ne hne
  rw [loadNode_eq]
  split_ifs
  · rw [mem_note_of_ne (h.add _) hne, hadd]
  · exact hadd

/-- The contact that an accepted record makes. -/
theorem Shaped.loadNode_merged (h : t.Shaped) (hadd : (t.add c.sighting).1 = true) :
    ∃ n, Merged t c.sighting n ∧ ∃ o ∈ (t.loadNode c).contacts, o.id = c.id ∧ o.ip = c.ip ∧
      o.udpPort = c.udpPort ∧ o.tcpPort = c.tcpPort ∧ o.version = c.version ∧
      o.verified = n.verified ∧ o.udpKey = (if c.udpKey = 0 then n.udpKey else c.udpKey) ∧
      (c.udpKey ≠ 0 → o.udpKeyIp = c.udpKeyIp) := by
  obtain ⟨n, hn, hid, hip, hudp, htcp, hversion, hmerged⟩ := h.merged hadd
  refine ⟨n, hmerged, ?_⟩
  rw [loadNode_eq]
  by_cases hkey : c.udpKey = 0
  · rw [if_neg (not_not.mpr hkey), if_pos hkey]
    exact ⟨n, hn, hid, hip, hudp, htcp, hversion, rfl, rfl, fun hne => absurd hkey hne⟩
  · rw [if_pos hkey, if_neg hkey]
    have hnoted := (h.add c.sighting).noted hn c.udpKey c.udpKeyIp
    have hid' : n.id = c.id := hid
    have hip' : n.ip = c.ip := hip
    rw [← hid', ← hip']
    exact ⟨_, hnoted, rfl, rfl, hudp, htcp, hversion, rfl, rfl, fun _ => rfl⟩

theorem Shaped.loadNode_carries (h : t.Shaped) (hc : t.Carries c) :
    ∃ o ∈ (t.loadNode c).contacts, c.Agrees o.record := by
  obtain ⟨n, hmerged, o, ho, hid, hip, hudp, htcp, hversion, hverified, hkey, hkeyIp⟩ :=
    h.loadNode_merged hc.admitted
  have hproof : n.verified = c.verified := by
    cases hmerged with
    | known hold hid hip hn =>
      exact hn.trans (Bool.or_eq_left_iff_imp.mpr (hc.proof _ hold hid hip))
    | alone _ hn => exact hn
  have hnone (hzero : c.udpKey = 0) : n.udpKey = 0 := by
    cases hmerged with
    | known hold hid hip _ hn => exact hn.trans (hc.key _ hold hid hip hzero)
    | alone _ _ hn => exact hn
  refine ⟨o, ho, hid, hip, hudp, htcp, hversion, hverified.trans hproof, ?_, hkeyIp⟩
  show o.udpKey = c.udpKey
  rw [hkey]
  split_ifs with hzero
  · rw [hnone hzero, hzero]
  · rfl

/-- A record that is refused leaves all addresses as they are. -/
theorem Shaped.mem_loadNode_of_refused (h : t.Shaped) (hadd : (t.add c.sighting).1 = false)
    (ho : o ∈ (t.loadNode c).contacts) : ∃ o' ∈ t.contacts, o'.id = o.id ∧ o'.ip = o.ip ∧
      o'.udpPort = o.udpPort ∧ o'.version = o.version := by
  have hold : ∃ o' ∈ (t.add c.sighting).2.contacts, o'.id = o.id ∧ o'.ip = o.ip ∧
      o'.udpPort = o.udpPort ∧ o'.version = o.version := by
    rw [loadNode_eq] at ho
    split_ifs at ho
    · exact mem_note (h.add _) ho
    · exact ⟨o, ho, rfl, rfl, rfl, rfl⟩
  obtain ⟨o', ho', hsame⟩ := hold
  exact ⟨o', (h.mem_add_of_refused hadd).mp ho', hsame⟩

/-- A record arrives as it is exactly when the table carries it. -/
theorem Shaped.carries_iff (h : t.Shaped) :
    (∃ o ∈ (t.loadNode c).contacts, c.Agrees o.record) ↔ t.Carries c := by
  refine ⟨?_, h.loadNode_carries⟩
  rintro ⟨o, ho, hagrees⟩
  cases hadd : (t.add c.sighting).1 with
  | true =>
    obtain ⟨n, hmerged, o', ho', hid, -, -, -, -, hverified, hkey, -⟩ := h.loadNode_merged hadd
    cases (h.loadNode c).eq_of_id ho ho' (hagrees.id.trans hid.symm)
    have hverified' : n.verified = c.verified := hverified.symm.trans hagrees.verified
    have hkey' : o.udpKey = c.udpKey := hagrees.udpKey
    refine ⟨hadd, fun old hold hid' hip' hproof => ?_, fun old hold hid' hip' hzero => ?_⟩
    · cases hmerged with
      | known hknown hid'' _ hn =>
        cases h.eq_of_id hknown hold (hid''.trans hid'.symm)
        rw [← hverified', hn, hproof, Bool.or_true]
      | alone hnone => exact absurd hip' (hnone old hold hid')
    · cases hmerged with
      | known hknown hid'' _ _ hn =>
        cases h.eq_of_id hknown hold (hid''.trans hid'.symm)
        rw [if_pos hzero, hn, hkey', hzero] at hkey
        exact hkey.symm
      | alone hnone => exact absurd hip' (hnone old hold hid')
  | false =>
    obtain ⟨o', ho', hid, hip, hport, hversion⟩ := h.mem_loadNode_of_refused hadd ho
    have hnew := (h.wellFormed.foreign o' ho').2
    rw [hversion.trans hagrees.version] at hnew
    have hrefresh := h.add_refresh (s := c.sighting) ho' (hid.trans hagrees.id)
      (hip.trans hagrees.ip) (hport.trans hagrees.udpPort) hnew
    exact absurd (hadd.symm.trans hrefresh) (by decide)

/-- Behind a record of an unknown contact there is the record, or nothing. -/
theorem Shaped.loadNode_new (h : t.Shaped) (hnew : ∀ old ∈ t.contacts, old.id ≠ c.id)
    (ho : o ∈ (t.loadNode c).contacts) (hid : o.id = c.id) : c.Agrees o.record := by
  cases hadd : (t.add c.sighting).1 with
  | true =>
    have hcarries : t.Carries c := ⟨hadd, fun old hold hid => absurd hid (hnew old hold),
      fun old hold hid => absurd hid (hnew old hold)⟩
    obtain ⟨o', ho', hagrees⟩ := h.loadNode_carries hcarries
    cases (h.loadNode c).eq_of_id ho ho' (hid.trans hagrees.id.symm)
    exact hagrees
  | false =>
    obtain ⟨o', ho', hid', -⟩ := h.mem_loadNode_of_refused hadd ho
    exact absurd (hid'.trans hid) (hnew o' ho')

/-! ## A list of records -/

/-- The table carries every record when its turn comes. -/
def CarriesAll : RoutingTable → List KadContact → Prop
  | _, [] => True
  | t, c :: cs => t.Carries c ∧ CarriesAll (t.loadNode c) cs

instance decCarriesAll : ∀ (t : RoutingTable) (cs : List KadContact), Decidable (t.CarriesAll cs)
  | _, [] => .isTrue trivial
  | t, c :: cs =>
    have := decCarriesAll (t.loadNode c) cs
    inferInstanceAs (Decidable (t.Carries c ∧ (t.loadNode c).CarriesAll cs))

theorem Shaped.loadNodes (h : t.Shaped) (cs : List KadContact) : (t.loadNodes cs).Shaped :=
  h.run [.loadNodes cs]

theorem loadNodes_cons (t : RoutingTable) (c : KadContact) (cs : List KadContact) :
    t.loadNodes (c :: cs) = (t.loadNode c).loadNodes cs := rfl

theorem Shaped.mem_loadNodes_of_ne {cs : List KadContact} (h : t.Shaped)
    (hne : ∀ c ∈ cs, o.id ≠ c.id) : o ∈ (t.loadNodes cs).contacts ↔ o ∈ t.contacts := by
  induction cs generalizing t with
  | nil => exact Iff.rfl
  | cons c cs ih =>
    obtain ⟨hc, hcs⟩ := List.forall_mem_cons.mp hne
    rw [loadNodes_cons, ih (h.loadNode c) hcs, h.mem_loadNode_of_ne hc]

/-- The ids after a load are those of the table and of the records. -/
theorem Shaped.id_loadNodes {cs : List KadContact} (h : t.Shaped)
    (ho : o ∈ (t.loadNodes cs).contacts) :
    (∃ o' ∈ t.contacts, o'.id = o.id) ∨ ∃ c ∈ cs, c.id = o.id := by
  by_cases hne : ∀ c ∈ cs, o.id ≠ c.id
  · exact .inl ⟨o, (h.mem_loadNodes_of_ne hne).mp ho, rfl⟩
  · push Not at hne
    obtain ⟨c, hc, hid⟩ := hne
    exact .inr ⟨c, hc, hid.symm⟩

/-- Records of different contacts all arrive as they are exactly when the table carries all. -/
theorem Shaped.carriesAll_iff {cs : List KadContact} (h : t.Shaped)
    (hnodup : (cs.map KadContact.id).Nodup) :
    (∀ c ∈ cs, ∃ o ∈ (t.loadNodes cs).contacts, c.Agrees o.record) ↔ t.CarriesAll cs := by
  induction cs generalizing t with
  | nil => exact iff_of_true (fun c hc => absurd hc List.not_mem_nil) trivial
  | cons c cs ih =>
    rw [List.map_cons, List.nodup_cons] at hnodup
    have hfirst (o : Contact) (hid : o.id = c.id) :
        o ∈ ((t.loadNode c).loadNodes cs).contacts ↔ o ∈ (t.loadNode c).contacts := by
      refine (h.loadNode c).mem_loadNodes_of_ne fun c' hc' heq => hnodup.1 ?_
      exact List.mem_map.mpr ⟨c', hc', heq.symm.trans hid⟩
    rw [List.forall_mem_cons, loadNodes_cons, ih (h.loadNode c) hnodup.2, CarriesAll,
      ← h.carries_iff]
    refine and_congr_left fun _ => exists_congr fun o => ⟨fun ⟨ho, hagrees⟩ => ?_,
      fun ⟨ho, hagrees⟩ => ?_⟩
    · exact ⟨(hfirst o hagrees.id).mp ho, hagrees⟩
    · exact ⟨(hfirst o hagrees.id).mpr ho, hagrees⟩

end RoutingTable

/-- Records of different unknown contacts, taken in one by one by `f`: whoever is there then was
    there before, or agrees with his record. `g` are the contacts of a state. -/
theorem agrees_of_foldl {σ : Type*} {f : σ → KadContact → σ} {g : σ → List Contact}
    {P : σ → Prop} (hP : ∀ w c, P w → P (f w c))
    (hkept : ∀ w c o, P w → o ∈ g (f w c) → o.id ≠ c.id → o ∈ g w)
    (htaken : ∀ w c o, P w → (∀ old ∈ g w, old.id ≠ c.id) → o ∈ g (f w c) → o.id = c.id →
      c.Agrees o.record) {w : σ} {cs : List KadContact} {o : Contact} (hw : P w)
    (hnodup : (cs.map KadContact.id).Nodup) (hnew : ∀ c ∈ cs, ∀ old ∈ g w, old.id ≠ c.id)
    (ho : o ∈ g (cs.foldl f w)) : o ∈ g w ∨ ∃ c ∈ cs, c.Agrees o.record := by
  induction cs generalizing w with
  | nil => exact .inl ho
  | cons c cs ih =>
    rw [List.map_cons, List.nodup_cons] at hnodup
    obtain ⟨hc, hcs⟩ := List.forall_mem_cons.mp hnew
    have hnew' : ∀ c' ∈ cs, ∀ old ∈ g (f w c), old.id ≠ c'.id := by
      intro c' hc' old hold heq
      have hne : old.id ≠ c.id := fun hid =>
        hnodup.1 (List.mem_map.mpr ⟨c', hc', heq.symm.trans hid⟩)
      exact hcs c' hc' old (hkept w c old hw hold hne) heq
    rcases ih (hP w c hw) hnodup.2 hnew' ho with ho | ⟨c', hc', hagrees⟩
    · by_cases hid : o.id = c.id
      · exact .inr ⟨c, List.mem_cons_self .., htaken w c o hw hc ho hid⟩
      · exact .inl (hkept w c o hw ho hid)
    · exact .inr ⟨c', List.mem_cons_of_mem _ hc', hagrees⟩

theorem RoutingTable.Shaped.loadNodes_new {t : RoutingTable} {cs : List KadContact} {o : Contact}
    (h : t.Shaped) (hnodup : (cs.map KadContact.id).Nodup)
    (hnew : ∀ c ∈ cs, ∀ old ∈ t.contacts, old.id ≠ c.id) (ho : o ∈ (t.loadNodes cs).contacts) :
    o ∈ t.contacts ∨ ∃ c ∈ cs, c.Agrees o.record :=
  agrees_of_foldl (fun _ c h => h.loadNode c)
    (fun _ _ _ h ho hne => (h.mem_loadNode_of_ne hne).mp ho) (fun _ _ _ h => h.loadNode_new) h
    hnodup hnew ho

end PadMule.Kad
