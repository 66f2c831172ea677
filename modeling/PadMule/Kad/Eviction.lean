import PadMule.Kad.TableContacts

/-
  `mule-kad/src/routing.rs`: nobody is evicted without an unanswered probe.

  A sweep removes the contacts of type 4 whose time is over. Only a probe makes a type 4, of a
  contact of type 2 or 3, and it stamps the time as well; so whatever type and time a contact has
  tells when it was probed (`Walk`). `Pending` is the history behind it: the id was probed, and
  since then it was neither proven alive nor removed nor moved to another ip.
-/

namespace PadMule.Kad

open PadMule.Proto BinTrie

namespace RoutingTable

/-! ## What ends the wait for an answer -/

/-- An accepted add that gives the contact with this id another ip. -/
def Moves (t : RoutingTable) (s : Sighting) (id : Kad128) : Prop :=
  s.id = id ∧ (t.add s).1 = true ∧ ∃ c ∈ t.contacts, c.id = id ∧ c.ip ≠ s.ip

/-- One of the adds of `load_nodes` does. -/
def LoadMoves (id : Kad128) : RoutingTable → List KadContact → Prop
  | _, [] => False
  | t, c :: contacts =>
    t.Moves ⟨c.id, c.ip, c.udpPort, c.tcpPort, c.version, c.verified⟩ id ∨
      LoadMoves id (t.loadNode c) contacts

/-- The contact is proven alive, goes or moves. -/
def Settles (t : RoutingTable) (id : Kad128) : RoutingOp → Prop
  | .add s => t.Moves s id
  | .loadNodes contacts => LoadMoves id t contacts
  | .setAlive i _ => i = id
  | .remove i => i = id
  | .sweep now maxProbes => id ∈ (t.sweep now maxProbes).1.removed
  | .noteVerifyKey .. => False
  | .verifyContact .. => False

/-- A sweep of the run probed the id at `since`, and nothing has settled it from then on. -/
inductive Pending (start : RoutingTable) (id : Kad128) (since : UInt64) :
    List RoutingOp → Prop where
  | probed (ops : List RoutingOp) (maxProbes : Nat)
      (h : id ∈ ((start.run ops).sweep since maxProbes).1.probes.map Contact.id) :
      Pending start id since (ops ++ [.sweep since maxProbes])
  | waits {ops : List RoutingOp} {op : RoutingOp} (h : Pending start id since ops)
      (hquiet : ¬(start.run ops).Settles id op) : Pending start id since (ops ++ [op])

theorem pending_concat {start : RoutingTable} {id : Kad128} {since : UInt64} {ops : List RoutingOp}
    {op : RoutingOp} : Pending start id since (ops ++ [op]) ↔
      (∃ maxProbes, op = .sweep since maxProbes ∧
        id ∈ ((start.run ops).sweep since maxProbes).1.probes.map Contact.id) ∨
      (Pending start id since ops ∧ ¬(start.run ops).Settles id op) := by
  constructor
  · intro h
    generalize hall : ops ++ [op] = all at h
    cases h with
    | probed ops' maxProbes h =>
      obtain ⟨rfl, heq⟩ := List.append_inj' hall rfl
      cases heq
      exact .inl ⟨maxProbes, rfl, h⟩
    | waits h hquiet =>
      obtain ⟨rfl, heq⟩ := List.append_inj' hall rfl
      cases heq
      exact .inr ⟨h, hquiet⟩
  · rintro (⟨maxProbes, rfl, h⟩ | ⟨h, hquiet⟩)
    · exact .probed ops maxProbes h
    · exact .waits h hquiet

/-! ## One step -/

variable {t : RoutingTable} {s : Sighting}

/-- A contact is new to the table, or has the type and the time of an old one. -/
inductive Carried (t : RoutingTable) (settles : Kad128 → Prop) (c' : Contact) : Prop where
  | fresh (htype : c'.kadType = KAD_TYPE_NEW)
      (h : (∀ o ∈ t.contacts, o.id ≠ c'.id) ∨ settles c'.id) : Carried t settles c'
  | kept {c : Contact} (hc : c ∈ t.contacts) (hid : c.id = c'.id) (hquiet : ¬settles c'.id)
      (htype : c'.kadType = c.kadType) (hexpires : c'.expires = c.expires) : Carried t settles c'

theorem Shaped.carried_add (h : t.Shaped) {c' : Contact} (hc' : c' ∈ (t.add s).2.contacts) :
    Carried t (t.Moves s) c' := by
  rcases h.mem_add hc' with ⟨hc, hrefused⟩ | ⟨hadd, old, hold, hid, -, rfl⟩ | ⟨-, hnew, rfl⟩
  · refine .kept hc rfl (fun hmoves => ?_) rfl rfl
    exact absurd ((hrefused hmoves.1.symm).symm.trans hmoves.2.1) (by decide)
  · obtain ⟨hid', -, -, -⟩ := (t.contact s).replacing_fields old
    by_cases hip : old.ip = s.ip
    · obtain ⟨htype, hexpires, -⟩ := Contact.replacing_age (c := t.contact s) hip
      refine .kept hold (hid.trans hid'.symm) (fun hmoves => ?_) htype hexpires
      obtain ⟨-, -, o, ho, hsame, hne⟩ := hmoves
      cases h.eq_of_id ho hold (hsame.trans (hid'.trans hid.symm))
      exact hne hip
    · refine .fresh ?_ (.inr ⟨hid'.symm, hadd, old, hold, hid.trans hid'.symm, hip⟩)
      rw [Contact.replacing_of_ne hip]
      rfl
  · exact .fresh rfl (.inl hnew)

theorem carried_alter (h : t.Shaped) {id : Kad128} {f : Contact → Contact} {c' : Contact}
    (hf : ∀ c, (f c).id = c.id ∧ (f c).kadType = c.kadType ∧ (f c).expires = c.expires)
    (hc' : c' ∈ (t.root.alter id f).2.toList) : Carried t (fun _ => False) c' := by
  rcases (Zone.touched_alter id f t.root).mem h.wellFormed.ids hc' with ⟨hc, -⟩ | ⟨o, ho, -, rfl⟩
  · exact .kept hc rfl (fun hfalse => hfalse) rfl rfl
  · obtain ⟨hid, htype, hexpires⟩ := hf o
    exact .kept ho hid.symm (fun hfalse => hfalse) htype hexpires

theorem Shaped.carried_noteVerifyKey (h : t.Shaped) {id : Kad128} {ip key keyIp : UInt32}
    {c' : Contact} (hc' : c' ∈ (t.noteVerifyKey id ip key keyIp).contacts) :
    Carried t (fun _ => False) c' :=
  carried_alter h (fun c => by split_ifs <;> exact ⟨rfl, rfl, rfl⟩) hc'

theorem Carried.trans {t' : RoutingTable} {settles settles' : Kad128 → Prop} {c' : Contact}
    (h' : Carried t' settles' c') (h : ∀ c ∈ t'.contacts, Carried t settles c)
    (hids : ∀ c ∈ t.contacts, ∃ c' ∈ t'.contacts, c'.id = c.id) :
    Carried t (fun id => settles id ∨ settles' id) c' := by
  cases h' with
  | fresh htype hnew =>
    refine .fresh htype (hnew.imp (fun hnone o ho hid => ?_) .inr)
    obtain ⟨o', ho', hid'⟩ := hids o ho
    exact hnone o' ho' (hid'.trans hid)
  | @kept c hc hid hquiet htype hexpires =>
    cases h c hc with
    | fresh htype' hnew =>
      exact .fresh (htype.trans htype') (hid ▸ hnew.imp_right .inl)
    | kept hc₀ hid₀ hquiet₀ htype₀ hexpires₀ =>
      refine .kept hc₀ (hid₀.trans hid) (fun hor => ?_) (htype.trans htype₀)
        (hexpires.trans hexpires₀)
      exact hor.elim (hid ▸ hquiet₀) hquiet

theorem Shaped.add_ids_subset (h : t.Shaped) (s : Sighting) {c : Contact} (hc : c ∈ t.contacts) :
    ∃ c' ∈ (t.add s).2.contacts, c'.id = c.id := by
  rcases h.add_keeps s hc with hsame | ⟨hid, -, -, hnew⟩
  · exact ⟨c, hsame, rfl⟩
  · exact ⟨_, hnew, ((t.contact s).replacing_fields c).1.trans hid.symm⟩

theorem noteVerifyKey_ids_subset {id : Kad128} {ip key keyIp : UInt32} {c : Contact}
    (hc : c ∈ t.contacts) : ∃ c' ∈ (t.noteVerifyKey id ip key keyIp).contacts, c'.id = c.id := by
  rcases (Zone.touched_alter id (fun c => if c.ip = ip then
    { c with udpKey := key, udpKeyIp := keyIp } else c) t.root).keeps hc with hsame | ⟨-, hnew⟩
  · exact ⟨c, hsame, rfl⟩
  · exact ⟨_, hnew, by split_ifs <;> rfl⟩

theorem Shaped.loadNode (h : t.Shaped) (c : KadContact) : (t.loadNode c).Shaped :=
  h.run [.loadNodes [c]]

theorem Shaped.carried_loadNode (h : t.Shaped) (c : KadContact) :
    (∀ c' ∈ (t.loadNode c).contacts, Carried t
      (t.Moves ⟨c.id, c.ip, c.udpPort, c.tcpPort, c.version, c.verified⟩) c') ∧
    ∀ o ∈ t.contacts, ∃ o' ∈ (t.loadNode c).contacts, o'.id = o.id := by
  have hadd (c' : Contact) := @Shaped.carried_add _
    ⟨c.id, c.ip, c.udpPort, c.tcpPort, c.version, c.verified⟩ h c'
  have hids (o : Contact) := h.add_ids_subset
    ⟨c.id, c.ip, c.udpPort, c.tcpPort, c.version, c.verified⟩ (c := o)
  unfold RoutingTable.loadNode
  dsimp only
  split_ifs
  · refine ⟨fun c' hc' => ?_, fun o ho => ?_⟩
    · have hcarried := ((h.add _).carried_noteVerifyKey hc').trans hadd hids
      simpa only [or_false] using hcarried
    · obtain ⟨o', ho', hid⟩ := hids o ho
      obtain ⟨o'', ho'', hid'⟩ := noteVerifyKey_ids_subset ho'
      exact ⟨o'', ho'', hid'.trans hid⟩
  · exact ⟨hadd, hids⟩

theorem Shaped.carried_loadNodes (h : t.Shaped) (contacts : List KadContact) :
    (∀ c' ∈ (t.loadNodes contacts).contacts, Carried t (LoadMoves · t contacts) c') ∧
    ∀ o ∈ t.contacts, ∃ o' ∈ (t.loadNodes contacts).contacts, o'.id = o.id := by
  induction contacts generalizing t with
  | nil =>
    exact ⟨fun c' hc' => .kept hc' rfl (fun hfalse => hfalse) rfl rfl, fun o ho => ⟨o, ho, rfl⟩⟩
  | cons c contacts ih =>
    obtain ⟨hnode, hids⟩ := h.carried_loadNode c
    obtain ⟨hrest, hids'⟩ := ih (h.loadNode c)
    refine ⟨fun c' hc' => (hrest c' hc').trans hnode hids, fun o ho => ?_⟩
    obtain ⟨o', ho', hid⟩ := hids o ho
    obtain ⟨o'', ho'', hid'⟩ := hids' o' ho'
    exact ⟨o'', ho'', hid'.trans hid⟩

theorem swept (t : RoutingTable) (now : UInt64) (maxProbes : Nat) :
    Zone.Swept now maxProbes t.contacts ⟨[], []⟩
      ((t.sweep now maxProbes).2.contacts, (t.sweep now maxProbes).1) :=
  Zone.swept_sweep now maxProbes t.root ⟨[], []⟩

theorem removed_eq (t : RoutingTable) (now : UInt64) (maxProbes : Nat) :
    (t.sweep now maxProbes).1.removed = (t.contacts.filter (Zone.dead now)).map Contact.id :=
  (t.swept now maxProbes).removed

/-- Who is not dead is not removed. -/
theorem Shaped.not_removed (h : t.Shaped) {now : UInt64} {maxProbes : Nat} {c : Contact}
    (hc : c ∈ t.contacts) (hlive : Zone.dead now c = false) :
    c.id ∉ (t.sweep now maxProbes).1.removed := by
  rw [removed_eq]
  intro hmem
  obtain ⟨o, ho, hid⟩ := List.mem_map.mp hmem
  obtain ⟨ho, hdead⟩ := List.mem_filter.mp ho
  cases h.eq_of_id ho hc hid
  exact absurd (hdead.symm.trans hlive) (by decide)

/-- What an operation makes of the type and the time of a contact. -/
inductive Fate (t : RoutingTable) (c' : Contact) : RoutingOp → Prop where
  | carried {op : RoutingOp} (h : Carried t (t.Settles · op) c') : Fate t c' op
  | alive {now : UInt64} (htype : c'.kadType = KAD_TYPE_ALIVE)
      (hexpires : c'.expires = some (now + ALIVE_LEASE_SECS)) : Fate t c' (.setAlive c'.id now)
  | aged {now : UInt64} {maxProbes : Nat} {c : Contact} (hc : c ∈ t.contacts) (hid : c.id = c'.id)
      (hlive : Zone.dead now c = false) (h : c' = c.aged now) : Fate t c' (.sweep now maxProbes)
  | probed {now : UInt64} {maxProbes : Nat} {c : Contact} (hc : c ∈ t.contacts) (hid : c.id = c'.id)
      (hlive : Zone.dead now c = false) (hdue : (c.aged now).Due now)
      (h : c' = (c.aged now).marked now)
      (hprobe : c'.id ∈ (t.sweep now maxProbes).1.probes.map Contact.id) :
      Fate t c' (.sweep now maxProbes)

theorem Shaped.fate (h : t.Shaped) {op : RoutingOp} {c' : Contact}
    (hc' : c' ∈ (t.apply op).contacts) : Fate t c' op := by
  cases op with
  | add s => exact .carried (h.carried_add hc')
  | loadNodes contacts => exact .carried ((h.carried_loadNodes contacts).1 c' hc')
  | setAlive id now =>
    rcases (Zone.touched_setAlive id now t.root).mem h.wellFormed.ids hc' with
      ⟨hc, hne⟩ | ⟨o, ho, rfl, rfl⟩
    · exact .carried (.kept hc rfl (fun heq => hne heq.symm) rfl rfl)
    · exact .alive rfl rfl
  | remove id =>
    have hkept : c' ∈ (Zone.remove id t.root).2.toList := hc'
    rw [Zone.toList_remove id h.wellFormed.ids] at hkept
    obtain ⟨hc, hne⟩ := List.mem_filter.mp hkept
    exact .carried (.kept hc rfl (fun heq => of_decide_eq_true hne heq.symm) rfl rfl)
  | sweep now maxProbes =>
    obtain ⟨c, hc, hlive, hsame | ⟨hdue, hmarked, hprobe⟩⟩ := (t.swept now maxProbes).kept c' hc'
    · exact .aged hc (by rw [hsame, Zone.id_aged]) hlive hsame
    · have hid : c.id = c'.id := by
        rw [hmarked]
        exact (Zone.id_aged now c).symm
      exact .probed hc hid hlive hdue hmarked (List.mem_map_of_mem hprobe)
  | noteVerifyKey id ip key keyIp => exact .carried (h.carried_noteVerifyKey hc')
  | verifyContact id ip =>
    exact .carried (carried_alter h (fun c => by split_ifs <;> exact ⟨rfl, rfl, rfl⟩) hc')

/-- Who is not settled stays. -/
theorem Shaped.stays (h : t.Shaped) {op : RoutingOp} {c : Contact} (hc : c ∈ t.contacts)
    (hquiet : ¬t.Settles c.id op) : ∃ c' ∈ (t.apply op).contacts, c'.id = c.id := by
  cases op with
  | add s => exact h.add_ids_subset s hc
  | loadNodes contacts => exact (h.carried_loadNodes contacts).2 c hc
  | setAlive id now =>
    rcases (Zone.touched_setAlive id now t.root).keeps hc with hsame | ⟨-, hnew⟩
    · exact ⟨c, hsame, rfl⟩
    · exact ⟨_, hnew, rfl⟩
  | remove id =>
    refine ⟨c, ?_, rfl⟩
    show c ∈ (Zone.remove id t.root).2.toList
    rw [Zone.toList_remove id h.wellFormed.ids]
    exact List.mem_filter.mpr ⟨hc, decide_eq_true fun heq => hquiet heq.symm⟩
  | sweep now maxProbes =>
    have hlive : Zone.dead now c = false := by
      rw [← Bool.not_eq_true]
      intro hdead
      refine hquiet ?_
      show c.id ∈ (t.sweep now maxProbes).1.removed
      rw [removed_eq]
      exact List.mem_map_of_mem (List.mem_filter.mpr ⟨hc, hdead⟩)
    have hmem : c.id ∈ ((t.sweep now maxProbes).2.contacts.map Contact.id) := by
      refine (t.swept now maxProbes).ids.symm.subset (List.mem_map_of_mem ?_)
      exact List.mem_filter.mpr ⟨hc, by rw [hlive]; rfl⟩
    exact List.mem_map.mp hmem
  | noteVerifyKey id ip key keyIp => exact noteVerifyKey_ids_subset hc
  | verifyContact id ip =>
    rcases (Zone.touched_alter id (fun c => if c.ip = ip then
      { c with verified := true } else c) t.root).keeps hc with hsame | ⟨-, hnew⟩
    · exact ⟨c, hsame, rfl⟩
    · exact ⟨_, hnew, by split_ifs <;> rfl⟩

/-! ## The walk of a contact -/

/-- What the types and the times in the table say about the probes of the run. -/
structure Walk (start : RoutingTable) (ops : List RoutingOp) : Prop where
  types : ∀ c ∈ (start.run ops).contacts, c.kadType = KAD_TYPE_ALIVE ∨ c.kadType = KAD_TYPE_NEW ∨
    c.kadType = KAD_TYPE_PROBED
  probed : ∀ c ∈ (start.run ops).contacts, c.kadType = KAD_TYPE_PROBED →
    ∃ since, Pending start c.id since ops ∧ c.expires = some (since + PROBE_WINDOW_SECS)
  pending : ∀ id since, Pending start id since ops → ∃ c ∈ (start.run ops).contacts, c.id = id ∧
    (c.kadType = KAD_TYPE_PROBED ∨
      c.kadType = KAD_TYPE_NEW ∧ c.expires = some (since + PROBE_WINDOW_SECS))

theorem run_concat (t : RoutingTable) (ops : List RoutingOp) (op : RoutingOp) :
    t.run (ops ++ [op]) = (t.run ops).apply op := List.foldl_concat ..

theorem kadType_aged (now : UInt64) (c : Contact) : (c.aged now).kadType = c.kadType := by
  unfold Contact.aged
  split_ifs <;> rfl

theorem kadType_marked (now : UInt64) (c : Contact) :
    ((c.aged now).marked now).kadType = Zone.bumped c.kadType := by
  rw [← kadType_aged now c]
  rfl

theorem aged_of_some {now e : UInt64} {c : Contact} (h : c.expires = some e) : c.aged now = c := by
  unfold Contact.aged
  rw [if_neg (by rw [h]; exact Option.some_ne_none e)]

/-- A probe makes a 3 of a 2, and a 4 of a 3. -/
theorem bumped_cases {kadType : UInt8} (h : kadType = KAD_TYPE_ALIVE ∨ kadType = KAD_TYPE_NEW) :
    kadType = KAD_TYPE_ALIVE ∧ Zone.bumped kadType = KAD_TYPE_NEW ∨
      kadType = KAD_TYPE_NEW ∧ Zone.bumped kadType = KAD_TYPE_PROBED := by
  rcases h with rfl | rfl
  · exact .inl ⟨rfl, rfl⟩
  · exact .inr ⟨rfl, rfl⟩

theorem Walk.due {start : RoutingTable} {ops : List RoutingOp} (hwalk : Walk start ops)
    {now : UInt64} {c : Contact} (hc : c ∈ (start.run ops).contacts) (hdue : (c.aged now).Due now) :
    c.kadType = KAD_TYPE_ALIVE ∨ c.kadType = KAD_TYPE_NEW := by
  have hfree := hdue.free
  rw [kadType_aged] at hfree
  rcases hwalk.types c hc with htype | htype | htype
  · exact .inl htype
  · exact .inr htype
  · exact absurd htype hfree

theorem Walk.types_step {start : RoutingTable} {ops : List RoutingOp} (hwalk : Walk start ops)
    {op : RoutingOp} {c' : Contact} (hfate : Fate (start.run ops) c' op) :
    c'.kadType = KAD_TYPE_ALIVE ∨ c'.kadType = KAD_TYPE_NEW ∨ c'.kadType = KAD_TYPE_PROBED := by
  cases hfate with
  | carried h =>
    cases h with
    | fresh htype => exact .inr (.inl htype)
    | kept hc hid hquiet htype => exact htype ▸ hwalk.types _ hc
  | alive htype => exact .inl htype
  | aged hc hid hlive h =>
    rw [h, kadType_aged]
    exact hwalk.types _ hc
  | @probed now _ c hc hid hlive hdue h =>
    have hbumped : c'.kadType = Zone.bumped c.kadType := h ▸ kadType_marked now c
    rcases bumped_cases (hwalk.due hc hdue) with ⟨-, heq⟩ | ⟨-, heq⟩
    · exact .inr (.inl (hbumped.trans heq))
    · exact .inr (.inr (hbumped.trans heq))

theorem Walk.probed_step {start : RoutingTable} {ops : List RoutingOp} (hwalk : Walk start ops)
    (hshaped : (start.run ops).Shaped) {op : RoutingOp} {c' : Contact}
    (hfate : Fate (start.run ops) c' op) (htype' : c'.kadType = KAD_TYPE_PROBED) :
    ∃ since, Pending start c'.id since (ops ++ [op]) ∧
      c'.expires = some (since + PROBE_WINDOW_SECS) := by
  cases hfate with
  | carried h =>
    cases h with
    | fresh htype => exact absurd (htype.symm.trans htype') (by decide)
    | kept hc hid hquiet htype hexpires =>
      obtain ⟨since, hpending, htime⟩ := hwalk.probed _ hc (htype.symm.trans htype')
      exact ⟨since, .waits (hid ▸ hpending) hquiet, hexpires.trans htime⟩
  | alive htype => exact absurd (htype.symm.trans htype') (by decide)
  | @aged now maxProbes c hc hid hlive h =>
    rw [h, kadType_aged] at htype'
    obtain ⟨since, hpending, htime⟩ := hwalk.probed c hc htype'
    have hquiet : ¬(start.run ops).Settles c'.id (.sweep now maxProbes) :=
      hid ▸ hshaped.not_removed hc hlive
    refine ⟨since, .waits (hid ▸ hpending) hquiet, ?_⟩
    rw [h, aged_of_some htime, htime]
  | @probed now maxProbes c hc hid hlive hdue h hprobe =>
    exact ⟨now, .probed ops maxProbes hprobe, by rw [h]; rfl⟩

/-- A contact that is waited for goes on being waited for. -/
theorem Walk.waits_step {start : RoutingTable} {ops : List RoutingOp} (hwalk : Walk start ops)
    (hshaped : (start.run ops).Shaped) {op : RoutingOp} {id : Kad128} {since : UInt64}
    (hpending : Pending start id since ops) (hquiet : ¬(start.run ops).Settles id op) :
    ∃ c' ∈ ((start.run ops).apply op).contacts, c'.id = id ∧ (c'.kadType = KAD_TYPE_PROBED ∨
      c'.kadType = KAD_TYPE_NEW ∧ c'.expires = some (since + PROBE_WINDOW_SECS)) := by
  obtain ⟨c, hc, rfl, hwaits⟩ := hwalk.pending id since hpending
  obtain ⟨c', hc', hid'⟩ := hshaped.stays hc hquiet
  refine ⟨c', hc', hid', ?_⟩
  cases hshaped.fate hc' with
  | carried h =>
    cases h with
    | fresh htype hnew =>
      rcases hnew with hnone | hsettles
      · exact absurd hid'.symm (hnone c hc)
      · exact absurd (hid' ▸ hsettles) hquiet
    | kept hc₀ hid hquiet htype hexpires =>
      cases hshaped.eq_of_id hc₀ hc (hid.trans hid')
      rw [htype, hexpires]
      exact hwaits
  | alive => exact absurd hid' hquiet
  | @aged now maxProbes c₀ hc₀ hid hlive h =>
    cases hshaped.eq_of_id hc₀ hc (hid.trans hid')
    rcases hwaits with htype | ⟨htype, hexpires⟩
    · exact .inl (by rw [h, kadType_aged, htype])
    · exact .inr (by rw [h, aged_of_some hexpires]; exact ⟨htype, hexpires⟩)
  | @probed now maxProbes c₀ hc₀ hid hlive hdue h =>
    cases hshaped.eq_of_id hc₀ hc (hid.trans hid')
    have hbumped : c'.kadType = Zone.bumped c.kadType := h ▸ kadType_marked now c
    have hnew : c.kadType = KAD_TYPE_NEW := by
      rcases hwaits with htype | ⟨htype, -⟩
      · exact absurd ((kadType_aged now c).trans htype) hdue.free
      · exact htype
    exact .inl (by rw [hbumped, hnew]; rfl)

theorem Walk.pending_step {start : RoutingTable} {ops : List RoutingOp} (hwalk : Walk start ops)
    (hshaped : (start.run ops).Shaped) {op : RoutingOp} {id : Kad128} {since : UInt64}
    (h : Pending start id since (ops ++ [op])) :
    ∃ c' ∈ ((start.run ops).apply op).contacts, c'.id = id ∧ (c'.kadType = KAD_TYPE_PROBED ∨
      c'.kadType = KAD_TYPE_NEW ∧ c'.expires = some (since + PROBE_WINDOW_SECS)) := by
  rcases pending_concat.mp h with ⟨maxProbes, rfl, hprobe⟩ | ⟨hpending, hquiet⟩
  · obtain ⟨p, hp, rfl⟩ := List.mem_map.mp hprobe
    obtain ⟨new, hnew, hprobed⟩ := ((start.run ops).swept since maxProbes).probes
    have hmem : p ∈ new := by
      have hall : ((start.run ops).sweep since maxProbes).1.probes = [] ++ new := hnew
      rwa [hall] at hp
    obtain ⟨hstays, c, hc, -, hdue, hmarked⟩ := hprobed p hmem
    have hbumped : p.kadType = Zone.bumped c.kadType := hmarked ▸ kadType_marked since c
    refine ⟨p, hstays, rfl, ?_⟩
    rcases bumped_cases (hwalk.due hc hdue) with ⟨-, heq⟩ | ⟨-, heq⟩
    · exact .inr ⟨hbumped.trans heq, by rw [hmarked]; rfl⟩
    · exact .inl (hbumped.trans heq)
  · exact hwalk.waits_step hshaped hpending hquiet

theorem walk_run (selfId : Kad128) (ops : List RoutingOp) : Walk (new selfId) ops := by
  induction ops using List.reverseRecOn with
  | nil =>
    refine ⟨fun c hc => absurd hc List.not_mem_nil, fun c hc => absurd hc List.not_mem_nil,
      fun id since h => ?_⟩
    generalize hnil : ([] : List RoutingOp) = ops at h
    cases h with
    | probed => exact absurd hnil.symm (by simp)
    | waits => exact absurd hnil.symm (by simp)
  | append_singleton ops op ih =>
    have hshaped := (shaped_new selfId).run ops
    refine ⟨fun c' hc' => ?_, fun c' hc' htype => ?_, fun id since h => ?_⟩
    · rw [run_concat] at hc'
      exact ih.types_step (hshaped.fate hc')
    · rw [run_concat] at hc'
      exact ih.probed_step hshaped (hshaped.fate hc') htype
    · rw [run_concat]
      exact ih.pending_step hshaped h

/-! ## Leases -/

/-- Who is alive has a time until which it is. -/
def Leased (t : RoutingTable) : Prop :=
  ∀ c ∈ t.contacts, c.kadType = KAD_TYPE_ALIVE → c.expires ≠ none

/-- Whoever is alive after an operation has the lease it had, or was just now given one. -/
theorem Walk.lease_step {start : RoutingTable} {ops : List RoutingOp} (hwalk : Walk start ops)
    (hleased : (start.run ops).Leased) {op : RoutingOp} {c' : Contact}
    (hfate : Fate (start.run ops) c' op) (halive : c'.kadType = KAD_TYPE_ALIVE) :
    (∃ c ∈ (start.run ops).contacts, c.id = c'.id ∧ c.kadType = KAD_TYPE_ALIVE ∧
      c.expires = c'.expires) ∨
    ∃ now, op = .setAlive c'.id now ∧ c'.expires = some (now + ALIVE_LEASE_SECS) := by
  cases hfate with
  | carried h =>
    cases h with
    | fresh htype => exact absurd (htype.symm.trans halive) (by decide)
    | kept hc hid hquiet htype hexpires =>
      exact .inl ⟨_, hc, hid, htype.symm.trans halive, hexpires.symm⟩
  | alive htype hexpires => exact .inr ⟨_, rfl, hexpires⟩
  | @aged now maxProbes c hc hid hlive h =>
    rw [h, kadType_aged] at halive
    obtain ⟨e, he⟩ := Option.ne_none_iff_exists'.mp (hleased c hc halive)
    rw [aged_of_some he] at h
    exact .inl ⟨c, hc, hid, halive, by rw [h]⟩
  | @probed now maxProbes c hc hid hlive hdue h =>
    have hbumped : c'.kadType = Zone.bumped c.kadType := h ▸ kadType_marked now c
    rcases bumped_cases (hwalk.due hc hdue) with ⟨-, heq⟩ | ⟨-, heq⟩
    · exact absurd (heq.symm.trans (hbumped.symm.trans halive)) (by decide)
    · exact absurd (heq.symm.trans (hbumped.symm.trans halive)) (by decide)

theorem leased_run (selfId : Kad128) (ops : List RoutingOp) : ((new selfId).run ops).Leased := by
  induction ops using List.reverseRecOn with
  | nil => exact fun c hc => absurd hc List.not_mem_nil
  | append_singleton ops op ih =>
    intro c' hc' halive
    rw [run_concat] at hc'
    have hfate := ((shaped_new selfId).run ops).fate hc'
    rcases (walk_run selfId ops).lease_step ih hfate halive with
      ⟨c, hc, -, hwas, hsame⟩ | ⟨now, -, hnew⟩
    · exact hsame ▸ ih c hc hwas
    · rw [hnew]
      exact Option.some_ne_none _

/-! ## What a sweep does -/

/-- What a sweep leaves alone of a contact. -/
def standing (c : Contact) : Kad128 × UInt32 × UInt16 × UInt16 × UInt8 × Bool × UInt32 × UInt32 :=
  (c.id, c.ip, c.udpPort, c.tcpPort, c.version, c.verified, c.udpKey, c.udpKeyIp)

theorem standing_aged (now : UInt64) (c : Contact) : standing (c.aged now) = standing c := by
  unfold Contact.aged
  split_ifs <;> rfl

/-- After any run: whom a sweep removes was probed a window or more ago and not settled since; a
    sweep probes no more than it may, and nobody whose last probe still runs; and it leaves the
    contacts it did not remove, the same up to their aging. -/
theorem evicted_only_unanswered (selfId : Kad128) (ops : List RoutingOp) (now : UInt64)
    (maxProbes : Nat) :
    (∀ id ∈ (((new selfId).run ops).sweep now maxProbes).1.removed, ∃ since,
      Pending (new selfId) id since ops ∧ since + PROBE_WINDOW_SECS ≤ now) ∧
    (((new selfId).run ops).sweep now maxProbes).1.probes.length ≤ maxProbes ∧
    (∀ p ∈ (((new selfId).run ops).sweep now maxProbes).1.probes, ∀ since,
      Pending (new selfId) p.id since ops → since + PROBE_WINDOW_SECS < now) ∧
    ((((new selfId).run ops).sweep now maxProbes).2.contacts.map Contact.id).Perm
      ((((new selfId).run ops).contacts.map Contact.id).filter
        (· ∉ (((new selfId).run ops).sweep now maxProbes).1.removed)) ∧
    ∀ c' ∈ (((new selfId).run ops).sweep now maxProbes).2.contacts,
      ∃ c ∈ ((new selfId).run ops).contacts, standing c' = standing c := by
  have hwalk := walk_run selfId ops
  have hshaped := (shaped_new selfId).run ops
  have hswept := ((new selfId).run ops).swept now maxProbes
  refine ⟨fun id hid => ?_, hswept.count, fun p hp since hpending => ?_, ?_, fun c' hc' => ?_⟩
  · rw [removed_eq] at hid
    obtain ⟨c, hc, rfl⟩ := List.mem_map.mp hid
    obtain ⟨hc, hdead⟩ := List.mem_filter.mp hc
    unfold Zone.dead at hdead
    rw [Bool.and_eq_true, decide_eq_true_eq] at hdead
    obtain ⟨since, hpending, htime⟩ := hwalk.probed c hc hdead.1
    rw [htime, Option.any_some, decide_eq_true_eq] at hdead
    exact ⟨since, hpending, hdead.2⟩
  · obtain ⟨new', hnew, hprobed⟩ := hswept.probes
    have hmem : p ∈ new' := by
      have hall : (((new selfId).run ops).sweep now maxProbes).1.probes = [] ++ new' := hnew
      rwa [hall] at hp
    obtain ⟨-, c, hc, -, hdue, hmarked⟩ := hprobed p hmem
    have hid : p.id = c.id := by
      rw [hmarked]
      exact Zone.id_aged now c
    obtain ⟨c₀, hc₀, hid₀, hwaits⟩ := hwalk.pending p.id since hpending
    cases hshaped.eq_of_id hc₀ hc (hid₀.trans hid)
    rcases hwaits with htype | ⟨-, htime⟩
    · exact absurd ((kadType_aged now c).trans htype) hdue.free
    · exact hdue.past _ (by rw [aged_of_some htime, htime])
  · refine hswept.ids.trans (List.Perm.of_eq ?_)
    rw [removed_eq, List.filter_map]
    refine congrArg _ (List.filter_congr fun c hc => ?_)
    have hremoved : c.id ∈ ((((new selfId).run ops).contacts.filter (Zone.dead now)).map
        Contact.id) ↔ Zone.dead now c = true := by
      refine ⟨fun hmem => ?_, fun hdead => List.mem_map_of_mem (List.mem_filter.mpr ⟨hc, hdead⟩)⟩
      obtain ⟨o, ho, hid⟩ := List.mem_map.mp hmem
      obtain ⟨ho, hdead⟩ := List.mem_filter.mp ho
      rwa [← hshaped.eq_of_id ho hc hid]
    rw [Function.comp, Bool.eq_iff_iff, decide_eq_true_eq, hremoved, Bool.not_eq_true',
      Bool.not_eq_true]
  · obtain ⟨c, hc, -, hcases⟩ := hswept.kept c' hc'
    refine ⟨c, hc, ?_⟩
    rcases hcases with rfl | ⟨-, rfl, -⟩
    · exact standing_aged now c
    · exact standing_aged now c

end RoutingTable

end PadMule.Kad
