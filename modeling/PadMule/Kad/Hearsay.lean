import PadMule.Kad.TableContacts

/-
  `mule-kad/src/routing.rs`: what hearsay can do to a contact.

  An add never carries a verify key, so a contact we hold a key for keeps its address, its key and
  its proof over any number of adds. The aging of a contact is carried over as long as no add moves
  it to another ip, and no bin changes the order of those it had.
-/

namespace PadMule.Kad

open PadMule.Proto BinTrie

/-- The operations that name an id as verified at an ip. -/
def RoutingOp.Vouches (id : Kad128) (ip : UInt32) : RoutingOp → Prop
  | .add s => s.id = id ∧ s.ip = ip ∧ s.verified = true
  | .loadNodes contacts => ∃ c ∈ contacts, c.id = id ∧ c.ip = ip ∧ c.verified = true
  | .verifyContact id' ip' => id' = id ∧ ip' = ip
  | _ => False

namespace RoutingTable

/-- A sequence of adds. -/
def hear (t : RoutingTable) (sightings : List Sighting) : RoutingTable :=
  sightings.foldl (fun t s => (t.add s).2) t

variable {t : RoutingTable} {s : Sighting}

/-! ## One contact -/

/-- What a contact we hold a key for keeps. -/
structure Frozen (c c' : Contact) : Prop where
  ip : c'.ip = c.ip
  udpPort : c'.udpPort = c.udpPort
  udpKey : c'.udpKey = c.udpKey
  udpKeyIp : c'.udpKeyIp = c.udpKeyIp
  verified : c.verified = true → c'.verified = true

theorem Frozen.refl (c : Contact) : Frozen c c := ⟨rfl, rfl, rfl, rfl, fun h => h⟩

theorem Frozen.trans {c c' c'' : Contact} (h : Frozen c c') (h' : Frozen c' c'') : Frozen c c'' :=
  ⟨h'.ip.trans h.ip, h'.udpPort.trans h.udpPort, h'.udpKey.trans h.udpKey,
    h'.udpKeyIp.trans h.udpKeyIp, fun hc => h'.verified (h.verified hc)⟩

/-- The aging of a contact. -/
def age (c : Contact) : UInt8 × Option UInt64 × UInt64 := (c.kadType, c.expires, c.lastTypeSet)

/-- What becomes of a contact: a keyed one is frozen, and one that is not moved keeps its age. -/
structure Heard (c c' : Contact) : Prop where
  id : c'.id = c.id
  frozen : c.udpKey ≠ 0 → Frozen c c'
  age : c'.ip = c.ip → age c' = age c

theorem Heard.refl (c : Contact) : Heard c c := ⟨rfl, fun _ => .refl c, fun _ => rfl⟩

theorem heard_replacing {old : Contact} (hid : old.id = s.id)
    (hfree : old.denies (t.contact s) = false) : Heard old ((t.contact s).replacing old) := by
  obtain ⟨hid', hip', -, -⟩ := (t.contact s).replacing_fields old
  refine ⟨hid'.trans hid.symm, fun hkey => ?_, fun hip => ?_⟩
  · obtain ⟨hip, hport⟩ := Contact.address_of_not_denies rfl hkey hfree
    obtain ⟨hkey', hkeyIp'⟩ := Contact.replacing_key hip rfl
    have hverified := Contact.replacing_verified hip
    refine ⟨hip'.trans hip.symm, ?_, hkey', hkeyIp', fun hold => ?_⟩
    · rw [(Contact.replacing_ports _ _).1, hport]
    · rw [hverified, hold, Bool.or_true]
  · obtain ⟨htype, hexpires, hlast⟩ := Contact.replacing_age (hip.symm.trans hip')
    unfold RoutingTable.age
    rw [htype, hexpires, hlast]

/-- Every contact is still there after an add. -/
theorem Shaped.heard (h : t.Shaped) (s : Sighting) {c : Contact} (hc : c ∈ t.contacts) :
    ∃ c' ∈ (t.add s).2.contacts, Heard c c' := by
  rcases h.add_keeps s hc with hsame | ⟨hid, -, hfree, hnew⟩
  · exact ⟨c, hsame, .refl c⟩
  · exact ⟨_, hnew, heard_replacing hid hfree⟩

theorem Shaped.hear (h : t.Shaped) (sightings : List Sighting) : (t.hear sightings).Shaped := by
  induction sightings generalizing t with
  | nil => exact h
  | cons s sightings ih => exact ih (h.add s)

theorem Shaped.hear_keeps (h : t.Shaped) (sightings : List Sighting) {c : Contact}
    (hc : c ∈ t.contacts) : ∃ c' ∈ (t.hear sightings).contacts, c'.id = c.id := by
  induction sightings generalizing t c with
  | nil => exact ⟨c, hc, rfl⟩
  | cons s sightings ih =>
    obtain ⟨c', hc', hheard⟩ := h.heard s hc
    obtain ⟨c'', hc'', hid⟩ := ih (h.add s) hc'
    exact ⟨c'', hc'', hid.trans hheard.id⟩

/-- A keyed contact is frozen over any sequence of adds. -/
theorem Shaped.hear_frozen (h : t.Shaped) (sightings : List Sighting) {c : Contact}
    (hc : c ∈ t.contacts) (hkey : c.udpKey ≠ 0) :
    ∃ c' ∈ (t.hear sightings).contacts, c'.id = c.id ∧ Frozen c c' := by
  induction sightings generalizing t c with
  | nil => exact ⟨c, hc, rfl, .refl c⟩
  | cons s sightings ih =>
    obtain ⟨c', hc', hheard⟩ := h.heard s hc
    have hfrozen := hheard.frozen hkey
    obtain ⟨c'', hc'', hid, hrest⟩ := ih (h.add s) hc' (hfrozen.udpKey ▸ hkey)
    exact ⟨c'', hc'', hid.trans hheard.id, hfrozen.trans hrest⟩

/-- A contact that none of the adds moves keeps its age. -/
theorem Shaped.hear_age (h : t.Shaped) (sightings : List Sighting) {c : Contact}
    (hc : c ∈ t.contacts)
    (hstay : ∀ part, part <+: sightings → ∀ o ∈ (t.hear part).contacts, o.id = c.id → o.ip = c.ip) :
    ∃ c' ∈ (t.hear sightings).contacts, c'.id = c.id ∧ age c' = age c := by
  induction sightings generalizing t c with
  | nil => exact ⟨c, hc, rfl, rfl⟩
  | cons s sightings ih =>
    obtain ⟨c', hc', hheard⟩ := h.heard s hc
    have hip : c'.ip = c.ip := hstay [s] (by simp) c' hc' hheard.id
    obtain ⟨c'', hc'', hid, hage⟩ := ih (h.add s) hc' fun part hpart o ho hid => by
      rw [hip]
      exact hstay (s :: part) (by simpa using hpart) o ho (hid.trans hheard.id)
    exact ⟨c'', hc'', hid.trans hheard.id, hage.trans (hheard.age hip)⟩

/-! ## The order of a bin -/

/-- The ids of a bin after an add: some of those it had, and maybe a new one behind them. -/
theorem Shaped.add_ids (h : t.Shaped) (s : Sighting) (id : Kad128) :
    (((t.add s).2.binOf id).map Contact.id).Sublist ((t.binOf id).map Contact.id) ∨
      ∃ part : List Kad128, part.Sublist ((t.binOf id).map Contact.id) ∧
        ((t.add s).2.binOf id).map Contact.id = part ++ [s.id] ∧
        ∀ o ∈ t.contacts, o.id ≠ s.id := by
  rcases t.add_cases s with ⟨-, heq⟩ | ⟨hfits, -, heq⟩
  · rw [heq]
    exact .inl (List.Sublist.refl _)
  · obtain ⟨n, -, hadds⟩ := Zone.adds_add (t.contact s) t.starved t.root
    have hbin : (t.add s).2.binOf id =
        (t.root.add (t.contact s) t.starved).2.leafAt (t.selfId.distance id).bit 0 := by
      rw [heq]
      rfl
    rw [hbin]
    rcases hadds.elsewhere h (t.selfId.distance id).bit with ⟨hold, hnew⟩ | hsub
    · have hlanded := h.landed (s := s)
      have hbefore : t.binOf id = t.binOf s.id := hold
      rw [List.length_nil] at hnew
      rw [hnew, hbefore]
      generalize (t.root.add (t.contact s) t.starved).1 = b at hlanded
      generalize (t.root.add (t.contact s) t.starved).2.leafAt (t.contact s).bits 0 = bin'
        at hlanded
      cases hlanded with
      | denied => exact .inl (List.Sublist.refl _)
      | @replaced pre post old hbins hid hdenies =>
        obtain ⟨hid', -, -, -⟩ := (t.contact s).replacing_fields old
        rw [hbins, List.map_append, List.map_append, List.map_cons, List.map_cons, hid', ← hid]
        exact .inl (List.Sublist.refl _)
      | refused hpart => exact .inl (hpart.map _)
      | @pushed part hpart hunknown =>
        refine .inr ⟨part.map Contact.id, hpart.map _, by rw [List.map_append]; rfl, ?_⟩
        exact fun o ho hid => hunknown o (hid ▸ h.mem_binOf ho) hid
    · exact .inl (hsub.map _)

/-- Those of a bin that were there at the start are in the order they had. -/
theorem Shaped.hear_order (h : t.Shaped) (sightings : List Sighting) (id : Kad128) :
    ((((t.hear sightings).binOf id).map Contact.id).filter
      (· ∈ (t.binOf id).map Contact.id)).Sublist ((t.binOf id).map Contact.id) := by
  generalize hstart : (t.binOf id).map Contact.id = start
  have hknown : ∀ i ∈ start, ∃ o ∈ t.contacts, o.id = i := by
    intro i hi
    obtain ⟨o, ho, rfl⟩ := List.mem_map.mp (hstart ▸ hi)
    exact ⟨o, mem_contacts_of_mem_binOf ho, rfl⟩
  have horder : (((t.binOf id).map Contact.id).filter (· ∈ start)).Sublist start := by
    rw [hstart]
    exact List.filter_sublist
  clear hstart
  induction sightings generalizing t with
  | nil => exact horder
  | cons s sightings ih =>
    refine ih (h.add s) (fun i hi => ?_) ?_
    · obtain ⟨o, ho, rfl⟩ := hknown i hi
      obtain ⟨o', ho', hheard⟩ := h.heard s ho
      exact ⟨o', ho', hheard.id⟩
    · rcases h.add_ids s id with hsub | ⟨part, hpart, hids, hnew⟩
      · exact (hsub.filter _).trans horder
      · have hout : s.id ∉ start := fun hin => by
          obtain ⟨o, ho, hid⟩ := hknown s.id hin
          exact hnew o ho hid
        rw [hids, List.filter_append, List.filter_cons_of_neg (by simpa using hout),
          List.filter_nil, List.append_nil]
        exact (hpart.filter _).trans horder

/-! ## The verified bit -/

/-- Where the verified bit of an address comes from. -/
def Proven (t : RoutingTable) (id : Kad128) (ip : UInt32) : Prop :=
  ∃ o ∈ t.contacts, o.id = id ∧ o.ip = ip ∧ o.verified = true

theorem Shaped.proven_add (h : t.Shaped) {id : Kad128} {ip : UInt32}
    (hproven : (t.add s).2.Proven id ip) :
    t.Proven id ip ∨ (s.id = id ∧ s.ip = ip ∧ s.verified = true) := by
  obtain ⟨c, hc, rfl, rfl, hverified⟩ := hproven
  rcases h.mem_add hc with ⟨hold, -⟩ | ⟨-, old, hold, hid, -, rfl⟩ | ⟨-, -, rfl⟩
  · exact .inl ⟨c, hold, rfl, rfl, hverified⟩
  · obtain ⟨hid', hip', -, -⟩ := (t.contact s).replacing_fields old
    by_cases hip : old.ip = s.ip
    · rw [Contact.replacing_verified hip, Bool.or_eq_true] at hverified
      rcases hverified with hnew | hkept
      · exact .inr ⟨hid'.symm, hip'.symm, hnew⟩
      · exact .inl ⟨old, hold, hid.trans hid'.symm, hip.trans hip'.symm, hkept⟩
    · rw [Contact.replacing_of_ne hip] at hverified
      exact .inr ⟨hid'.symm, hip'.symm, hverified⟩
  · exact .inr ⟨rfl, rfl, hverified⟩

theorem proven_touched {id : Kad128} {f : Contact → Contact} {root : Zone} {b : Bool}
    (h : t.Shaped) (htouched : Zone.Touched id f t.contacts root.toList b)
    (hf : ∀ c, (f c).id = c.id ∧ (f c).ip = c.ip) {i : Kad128} {ip : UInt32}
    (hproven : ({ t with root } : RoutingTable).Proven i ip) :
    t.Proven i ip ∨ ∃ c, c.id = id ∧ i = id ∧ c.ip = ip ∧ c.verified = false ∧
      (f c).verified = true := by
  obtain ⟨c, hc, rfl, rfl, hverified⟩ := hproven
  rcases htouched.mem h.wellFormed.ids hc with ⟨hold, -⟩ | ⟨old, hold, hid, rfl⟩
  · exact .inl ⟨c, hold, rfl, rfl, hverified⟩
  · cases hbit : old.verified with
    | true => exact .inl ⟨old, hold, (hf old).1.symm, (hf old).2.symm, hbit⟩
    | false => exact .inr ⟨old, hid, (hf old).1.trans hid, (hf old).2.symm, hbit, hverified⟩

theorem Shaped.proven_noteVerifyKey (h : t.Shaped) {id : Kad128} {ip key keyIp : UInt32}
    {i : Kad128} {a : UInt32} (hproven : (t.noteVerifyKey id ip key keyIp).Proven i a) :
    t.Proven i a := by
  rcases proven_touched h (Zone.touched_alter id _ t.root)
    (fun c => by split_ifs <;> exact ⟨rfl, rfl⟩) hproven with hold | ⟨c, -, -, -, hbit, hnew⟩
  · exact hold
  · split_ifs at hnew
    · exact absurd (hbit.symm.trans hnew) (by decide)
    · exact absurd (hbit.symm.trans hnew) (by decide)

/-- An operation that does not vouch for an address proves nobody there. -/
theorem Shaped.proven_apply (h : t.Shaped) (op : RoutingOp) {id : Kad128} {ip : UInt32}
    (hproven : (t.apply op).Proven id ip) : t.Proven id ip ∨ op.Vouches id ip := by
  cases op with
  | add s => exact h.proven_add hproven
  | loadNodes contacts =>
    show t.Proven id ip ∨ ∃ c ∈ contacts, _
    induction contacts generalizing t with
    | nil => exact .inl hproven
    | cons c contacts ih =>
      rcases ih (h.run [.loadNodes [c]]) hproven with hnode | ⟨c', hc', hvouches⟩
      · have hadd : (t.add ⟨c.id, c.ip, c.udpPort, c.tcpPort, c.version, c.verified⟩).2.Proven
            id ip := by
          change (t.loadNode c).Proven id ip at hnode
          unfold RoutingTable.loadNode at hnode
          dsimp only at hnode
          split_ifs at hnode
          · exact (h.add _).proven_noteVerifyKey hnode
          · exact hnode
        rcases h.proven_add hadd with hold | hvouches
        · exact .inl hold
        · exact .inr ⟨c, List.mem_cons_self .., hvouches⟩
      · exact .inr ⟨c', List.mem_cons_of_mem _ hc', hvouches⟩
  | setAlive i now =>
    rcases proven_touched h (Zone.touched_setAlive i now t.root) (fun c => ⟨rfl, rfl⟩) hproven with
      hold | ⟨c, -, -, -, hbit, hnew⟩
    · exact .inl hold
    · exact absurd (hbit.symm.trans hnew) (by decide)
  | remove i =>
    obtain ⟨c, hc, hid, hip, hverified⟩ := hproven
    have hremoved : c ∈ (Zone.remove i t.root).2.toList := hc
    rw [Zone.toList_remove i h.wellFormed.ids] at hremoved
    exact .inl ⟨c, (List.mem_filter.mp hremoved).1, hid, hip, hverified⟩
  | sweep now maxProbes =>
    obtain ⟨c, hc, rfl, rfl, hverified⟩ := hproven
    obtain ⟨o, ho, -, hcases⟩ := (Zone.swept_sweep now maxProbes t.root ⟨[], []⟩).kept c hc
    have hsame : (o.aged now).id = o.id ∧ (o.aged now).ip = o.ip ∧
        (o.aged now).verified = o.verified := by
      unfold Contact.aged
      split_ifs <;> exact ⟨rfl, rfl, rfl⟩
    refine .inl ⟨o, ho, ?_⟩
    rcases hcases with rfl | ⟨-, rfl, -⟩
    · exact ⟨hsame.1.symm, hsame.2.1.symm, hsame.2.2.symm.trans hverified⟩
    · exact ⟨hsame.1.symm, hsame.2.1.symm, hsame.2.2.symm.trans hverified⟩
  | noteVerifyKey i a key keyIp => exact .inl (h.proven_noteVerifyKey hproven)
  | verifyContact i a =>
    rcases proven_touched h (Zone.touched_alter i _ t.root)
      (fun c => by split_ifs <;> exact ⟨rfl, rfl⟩) hproven with hold | ⟨c, -, hid, hip, hbit, hnew⟩
    · exact .inl hold
    · split_ifs at hnew with haddress
      · exact .inr ⟨hid.symm, haddress.symm.trans hip⟩
      · exact absurd (hbit.symm.trans hnew) (by decide)

theorem Shaped.proven_run (h : t.Shaped) (ops : List RoutingOp) {id : Kad128} {ip : UInt32}
    (hproven : (t.run ops).Proven id ip) : t.Proven id ip ∨ ∃ op ∈ ops, op.Vouches id ip := by
  induction ops generalizing t with
  | nil => exact .inl hproven
  | cons op ops ih =>
    rcases ih (h.run [op]) hproven with happly | ⟨op', hop', hvouches⟩
    · exact (h.proven_apply op happly).imp_right fun hvouches =>
        ⟨op, List.mem_cons_self .., hvouches⟩
    · exact .inr ⟨op', List.mem_cons_of_mem _ hop', hvouches⟩

/-- Over any adds to any reachable table: every contact stays; one we hold a key for keeps its
    address, its key and its verified bit; one that no add moves to another ip keeps its age; and
    of every bin those that were there before are in the order they had. A contact is verified at an
    ip only where an operation of the run named it as verified there. -/
theorem hearsay_frame (selfId : Kad128) (ops : List RoutingOp) (sightings : List Sighting) :
    (∀ c ∈ ((new selfId).run ops).contacts,
      (∃ c' ∈ (((new selfId).run ops).hear sightings).contacts, c'.id = c.id) ∧
      ∀ c' ∈ (((new selfId).run ops).hear sightings).contacts, c'.id = c.id →
        (c.udpKey ≠ 0 → c'.ip = c.ip ∧ c'.udpPort = c.udpPort ∧ c'.udpKey = c.udpKey ∧
          c'.udpKeyIp = c.udpKeyIp ∧ (c.verified = true → c'.verified = true)) ∧
        ((∀ part, part <+: sightings → ∀ o ∈ (((new selfId).run ops).hear part).contacts,
            o.id = c.id → o.ip = c.ip) →
          c'.kadType = c.kadType ∧ c'.expires = c.expires ∧ c'.lastTypeSet = c.lastTypeSet)) ∧
    (∀ id, ((((((new selfId).run ops).hear sightings).binOf id).map Contact.id).filter
        (· ∈ (((new selfId).run ops).binOf id).map Contact.id)).Sublist
      ((((new selfId).run ops).binOf id).map Contact.id)) ∧
    ∀ c ∈ ((new selfId).run ops).contacts, c.verified = true →
      ∃ op ∈ ops, op.Vouches c.id c.ip := by
  have hshaped := (shaped_new selfId).run ops
  refine ⟨fun c hc => ?_, hshaped.hear_order sightings, fun c hc hverified => ?_⟩
  · have hheard := hshaped.hear sightings
    refine ⟨hshaped.hear_keeps sightings hc, fun c' hc' hid => ⟨fun hkey => ?_, fun hstay => ?_⟩⟩
    · obtain ⟨o, ho, hid', hfrozen⟩ := hshaped.hear_frozen sightings hc hkey
      cases hheard.eq_of_id hc' ho (hid.trans hid'.symm)
      exact ⟨hfrozen.ip, hfrozen.udpPort, hfrozen.udpKey, hfrozen.udpKeyIp, hfrozen.verified⟩
    · obtain ⟨o, ho, hid', hage⟩ := hshaped.hear_age sightings hc hstay
      cases hheard.eq_of_id hc' ho (hid.trans hid'.symm)
      simpa only [age, Prod.mk.injEq] using hage
  · rcases (shaped_new selfId).proven_run ops ⟨c, hc, rfl, rfl, hverified⟩ with
      ⟨o, ho, -⟩ | hvouches
    · exact absurd ho List.not_mem_nil
    · exact hvouches

end RoutingTable

end PadMule.Kad
