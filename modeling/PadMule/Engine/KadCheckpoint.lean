import PadMule.Engine.KadGate
import PadMule.Files.NodesDat
import PadMule.Kad.LoadNodes
import PadMule.Lib.LastWins

/-
  `mule-engine/src/engine.rs`: what becomes of the contacts of Kad over its pauses.

  There are three copies of them: the table of the live node, the persisted table and `nodes.dat`.
  A checkpoint writes the union of the two tables, and the live one wins. A node that is dropped is
  loaded into the persisted table first, by the rules of an ordinary add, so that there an old proof
  or key can win, and an old address. A node that starts takes in what `nodes.dat` still has.
  `pause` and `shutdown` are `drop` and then `checkpoint`, `pause_for_seeding` is `absorb` and then
  `checkpoint`, and `set_kad_enabled` is `drop` or `start`.
  `outgoing` keeps what the last node held when it was dropped, `evicted` whom the sweeps have
  evicted since he was last learned. `pausing_keeps`: a checkpoint is faithful to both as long as
  the persisted table carries every node that is dropped and no node that starts takes in somebody
  evicted.
-/

namespace PadMule.Engine.KadCheckpoint

open PadMule.Proto PadMule.Kad PadMule.Files KadGate LastWins

def KAD_SWEEP_MAX_PROBES : Nat := 2

/-- `routing_to_nodes` -/
def routingToNodes (t : RoutingTable) : List KadContact := t.contacts.map Contact.record

/-- `checkpoint_contacts`: every id once, with its live record where there is one. -/
def checkpointContacts (persisted : RoutingTable) (live : Option RoutingTable) :
    List KadContact :=
  puts KadContact.id (puts KadContact.id [] (routingToNodes persisted))
    (live.elim [] routingToNodes)

def wireContact (c : KadContact) : WireContact := ⟨c.id, c.ip, c.udpPort, c.tcpPort, c.version⟩

def gateLoadedNodes (contacts : List KadContact) (filter : Option IpFilter) : List KadContact :=
  contacts.filter fun c => 1 < c.version && addressPasses filter (wireContact c)

/-- A node that was bound and given the blocklist. -/
def bindNode (selfId : Kad128) (ipFilter : Option IpFilter) : KadGate.World :=
  (KadGate.World.new selfId).step (.setIpFilter ipFilter)

/-- `seed_routing` on such a node. -/
def seedRouting (selfId : Kad128) (ipFilter : Option IpFilter) (now : UInt64)
    (contacts : List KadContact) : RoutingTable :=
  ((bindNode selfId ipFilter).step (.seed contacts now)).table

/-! ## A live node -/

/-- What the network does to the table of a node. -/
inductive NodeOp where
  | add (s : Sighting)
  | setAlive (id : Kad128) (now : UInt64)
  | noteVerifyKey (id : Kad128) (ip key keyIp : UInt32)
  | verifyContact (id : Kad128) (ip : UInt32)
  | remove (id : Kad128)

namespace NodeOp

def op : NodeOp → RoutingOp
  | add s => .add s
  | setAlive id now => .setAlive id now
  | noteVerifyKey id ip key keyIp => .noteVerifyKey id ip key keyIp
  | verifyContact id ip => .verifyContact id ip
  | remove id => .remove id

/-- Whom the table learns. -/
def learned (t : RoutingTable) : NodeOp → List Kad128
  | add s => if (t.add s).1 then [s.id] else []
  | _ => []

end NodeOp

/-- The table of a node, and the evicted ones that it does not learn again. -/
def receive (r : RoutingTable × List Kad128) (ops : List NodeOp) : RoutingTable × List Kad128 :=
  ops.foldl (fun r op => (r.1.apply op.op, r.2.filter fun id => id ∉ op.learned r.1)) r

/-! ## The engine -/

structure Store where
  routing : RoutingTable
  /-- The table of the live node. -/
  kad : Option RoutingTable
  ipFilter : Option IpFilter
  nodesDat : Option Bytes
  /-- What the last node held when it was dropped. -/
  outgoing : List KadContact
  /-- Whom the sweeps have evicted since he was last learned. -/
  evicted : List Kad128

namespace Store

/-- What `nodes.dat` has. -/
def onDisk (nodesDat : Option Bytes) : List KadContact :=
  ((nodesDat.bind fun b => (readNodesDat b).toOption).map NodesDat.contacts).getD []

/-- `start` up to `start_kad`: the persisted table is what is in `nodes.dat`. -/
def launch (selfId : Kad128) (ipFilter : Option IpFilter) (nodesDat : Option Bytes) : Store :=
  { routing := (RoutingTable.new selfId).loadNodes (gateLoadedNodes (onDisk nodesDat) ipFilter)
    kad := none, ipFilter, nodesDat, outgoing := [], evicted := [] }

def absorbKadRouting (w : Store) : Store :=
  { w with
    routing := w.kad.elim w.routing fun t => w.routing.loadNodes (routingToNodes t) }

/-- What the live node holds, or the last one held. -/
def held (w : Store) : List KadContact := w.kad.elim w.outgoing routingToNodes

def setKad (w : Store) (node : Option RoutingTable) : Store :=
  { w.absorbKadRouting with kad := node, outgoing := w.held }

/-- Whom a new node is seeded with. -/
def dialList (w : Store) : List KadContact :=
  let contacts := routingToNodes w.routing
  let known := contacts.map KadContact.id
  gateLoadedNodes (contacts ++ (onDisk w.nodesDat).filter fun c => c.id ∉ known) w.ipFilter

/-- `start_kad`; `heard` is what the bootstrap brings. -/
def startKad (w : Store) (bound : Bool) (now : UInt64) (heard : List NodeOp) : Store :=
  let contacts := w.dialList
  if contacts.isEmpty then w
  else if !bound then w
  else
    let r := receive (seedRouting w.routing.selfId w.ipFilter now contacts, w.evicted) heard
    let w := { w with
      routing := w.routing.loadNodes (routingToNodes r.1)
      evicted := r.2 }
    w.setKad (some r.1)

/-- `maintain_kad_liveness`; `heard` is what comes in while the probes wait for their answers. -/
def maintainKadLiveness (w : Store) (now : UInt64) (heard : List NodeOp) : Store :=
  match w.kad with
  | none => w
  | some t =>
    let swept := t.sweep now KAD_SWEEP_MAX_PROBES
    let r := receive (swept.2, swept.1.removed ++ w.evicted) heard
    { w with
      kad := some r.1
      evicted := r.2
      routing := swept.1.removed.foldl (fun t id => (t.remove id).2) w.routing }

def checkpointed (w : Store) : List KadContact := checkpointContacts w.routing w.kad

/-- `written` says whether the file is replaced. -/
def checkpoint (w : Store) (written : Bool) : Store :=
  { w with
    nodesDat := if written then some (writeNodesDat ⟨2, w.checkpointed⟩) else w.nodesDat }

end Store

inductive KadEvent where
  /-- The network reaches the live node. -/
  | receive (op : NodeOp)
  | liveness (now : UInt64) (heard : List NodeOp)
  | absorb
  /-- `set_kad(None)` -/
  | drop
  | start (bound : Bool) (now : UInt64) (heard : List NodeOp)
  | setIpFilter (ipFilter : Option IpFilter)
  | checkpoint (written : Bool)

namespace Store

def step (w : Store) : KadEvent → Option Store
  | .receive op => w.kad.map fun t =>
      let r := KadCheckpoint.receive (t, w.evicted) [op]
      { w with kad := some r.1, evicted := r.2 }
  | .liveness now heard => some (w.maintainKadLiveness now heard)
  | .absorb => some w.absorbKadRouting
  | .drop => some (w.setKad none)
  | .start bound now heard => some (w.startKad bound now heard)
  | .setIpFilter ipFilter => some { w with ipFilter }
  | .checkpoint written => some (w.checkpoint written)

/-- What a checkpoint should write, and what it should read back as. -/
structure Faithful (w : Store) : Prop where
  ids : (w.checkpointed.map KadContact.id).Nodup
  remembers : ∀ c ∈ w.held, ∃ r ∈ w.checkpointed, c.Agrees r
  forgets : ∀ r ∈ w.checkpointed, r.id ∉ w.evicted
  written : ∃ bytes, (w.checkpoint true).nodesDat = some bytes ∧
    readNodesDat bytes = .ok ⟨2, w.checkpointed⟩
  loads : ∀ selfId ipFilter,
    ∀ o ∈ (launch selfId ipFilter (w.checkpoint true).nodesDat).routing.contacts,
      ∃ r ∈ w.checkpointed, r.Agrees o.record
  seeds : ∀ selfId ipFilter now, ∀ o ∈ (seedRouting selfId ipFilter now w.checkpointed).contacts,
    ∃ r ∈ w.checkpointed, r.Agrees o.record

/-- As long as the two tables fit into `nodes.dat`. -/
def Keeps (w : Store) : Prop := w.checkpointed.length ≤ MAX_NODES → w.Faithful

end Store

/-- A node that is seeded refuses the evicted ones when their turn comes. -/
def Refuses (evicted : List Kad128) (now : UInt64) : KadGate.World → List KadContact → Prop
  | _, [] => True
  | n, c :: cs => (c.id ∈ evicted →
      accepts n.table n.ipFilter (wireContact c) c.verified = false) ∧
        Refuses evicted now (n.seedOne now c) cs

instance decRefuses (evicted : List Kad128) (now : UInt64) :
    ∀ n cs, Decidable (Refuses evicted now n cs)
  | _, [] => .isTrue trivial
  | n, c :: cs =>
    have := decRefuses evicted now (n.seedOne now c) cs
    inferInstanceAs (Decidable ((c.id ∈ evicted →
      accepts n.table n.ipFilter (wireContact c) c.verified = false) ∧
        Refuses evicted now (n.seedOne now c) cs))

namespace Store

/-- The persisted table carries the node that is dropped, and the one that starts refuses whom
    the sweeps have evicted. -/
def Harmless (w : Store) : KadEvent → Prop
  | .drop => ∀ t ∈ w.kad, w.routing.CarriesAll (routingToNodes t)
  | .start bound now _ => bound = true →
      Refuses w.evicted now (bindNode w.routing.selfId w.ipFilter) w.dialList
  | _ => True

instance (w : Store) : ∀ e, Decidable (w.Harmless e)
  | .drop => inferInstanceAs (Decidable (∀ t ∈ w.kad, w.routing.CarriesAll (routingToNodes t)))
  | .start bound now _ =>
    have := decRefuses w.evicted now (bindNode w.routing.selfId w.ipFilter) w.dialList
    inferInstanceAs (Decidable (bound = true →
      Refuses w.evicted now (bindNode w.routing.selfId w.ipFilter) w.dialList))
  | .receive _ | .liveness .. | .absorb | .setIpFilter _ | .checkpoint _ => .isTrue trivial

end Store

/-! ## Who is gone -/

/-- None of the ids is in the table. -/
def Gone (ids : List Kad128) (t : RoutingTable) : Prop := ∀ id ∈ ids, ∀ o ∈ t.contacts, o.id ≠ id

variable {t : RoutingTable} {ids : List Kad128}

theorem mem_routingToNodes {c : KadContact} :
    c ∈ routingToNodes t ↔ ∃ o ∈ t.contacts, o.record = c := List.mem_map

theorem nodup_routingToNodes (h : t.Shaped) :
    ((routingToNodes t).map KadContact.id).Nodup := by
  unfold routingToNodes
  rw [List.map_map]
  exact h.wellFormed.ids

theorem Gone.notMem (h : Gone ids t) {c : KadContact} (hc : c ∈ routingToNodes t) : c.id ∉ ids := by
  obtain ⟨o, ho, rfl⟩ := mem_routingToNodes.mp hc
  exact fun hid => h _ hid o ho rfl

theorem Gone.loadNodes (h : Gone ids t) (hshaped : t.Shaped) {cs : List KadContact}
    (hcs : ∀ c ∈ cs, c.id ∉ ids) : Gone ids (t.loadNodes cs) := by
  rintro id hid o ho rfl
  rcases hshaped.id_loadNodes ho with ⟨o', ho', hsame⟩ | ⟨c, hc, hsame⟩
  · exact h _ hid o' ho' hsame
  · exact hcs c hc (hsame ▸ hid)

theorem shaped_apply (h : t.Shaped) (op : RoutingOp) : (t.apply op).Shaped := h.run [op]

/-- The ids after an operation are those before it and what it teaches. -/
theorem id_apply (h : t.Shaped) {op : NodeOp} {o : Contact} (ho : o ∈ (t.apply op.op).contacts) :
    (∃ o' ∈ t.contacts, o'.id = o.id) ∨ o.id ∈ op.learned t := by
  cases op with
  | add s =>
    rcases h.mem_add ho with ⟨ho, -⟩ | ⟨-, old, hold, hid, -, rfl⟩ | ⟨hadd, -, rfl⟩
    · exact .inl ⟨o, ho, rfl⟩
    · exact .inl ⟨old, hold, hid.trans ((t.contact s).replacing_fields old).1.symm⟩
    · refine .inr ?_
      show s.id ∈ if (t.add s).1 then [s.id] else []
      rw [if_pos hadd]
      exact List.mem_singleton_self _
  | setAlive id now =>
    rcases (Zone.touched_setAlive id now t.root).mem h.wellFormed.ids ho with
      ⟨ho, -⟩ | ⟨o', ho', -, rfl⟩
    · exact .inl ⟨o, ho, rfl⟩
    · exact .inl ⟨o', ho', rfl⟩
  | noteVerifyKey id ip key keyIp =>
    obtain ⟨o', ho', hid, -⟩ := RoutingTable.mem_note h ho
    exact .inl ⟨o', ho', hid⟩
  | verifyContact id ip =>
    rcases (Zone.touched_alter id _ t.root).mem h.wellFormed.ids ho with ⟨ho, -⟩ | ⟨o', ho', -, rfl⟩
    · exact .inl ⟨o, ho, rfl⟩
    · refine .inl ⟨o', ho', ?_⟩
      split_ifs <;> rfl
  | remove id =>
    have hkept : o ∈ (Zone.remove id t.root).2.toList := ho
    rw [Zone.toList_remove id h.wellFormed.ids] at hkept
    exact .inl ⟨o, (List.mem_filter.mp hkept).1, rfl⟩

theorem Gone.mono {ids' : List Kad128} (h : Gone ids t) (hsub : ids' ⊆ ids) : Gone ids' t :=
  fun id hid => h id (hsub hid)

theorem receive_subset (t : RoutingTable) (ids : List Kad128) (ops : List NodeOp) :
    (receive (t, ids) ops).2 ⊆ ids := by
  induction ops generalizing t ids with
  | nil => exact List.Subset.refl _
  | cons op ops ih => exact fun id hid => (List.mem_filter.mp (ih _ _ hid)).1

theorem receive_gone (h : t.Shaped) (hgone : Gone ids t) (ops : List NodeOp) :
    (receive (t, ids) ops).1.Shaped ∧ Gone (receive (t, ids) ops).2 (receive (t, ids) ops).1 := by
  induction ops generalizing t ids with
  | nil => exact ⟨h, hgone⟩
  | cons op ops ih =>
    refine ih (shaped_apply h op.op) ?_
    rintro id hid o ho rfl
    obtain ⟨hold, hnew⟩ := List.mem_filter.mp hid
    rcases id_apply h ho with ⟨o', ho', hsame⟩ | hlearned
    · exact hgone _ hold o' ho' hsame
    · exact of_decide_eq_true hnew hlearned

/-- Whom a sweep removes is gone from the live table. -/
theorem gone_sweep (h : t.Shaped) (hgone : Gone ids t) (now : UInt64) (maxProbes : Nat) :
    Gone ((t.sweep now maxProbes).1.removed ++ ids) (t.sweep now maxProbes).2 := by
  rintro id hid o ho rfl
  have hmem := (t.swept now maxProbes).ids.subset (List.mem_map_of_mem ho)
  obtain ⟨o', ho', hsame⟩ := List.mem_map.mp hmem
  obtain ⟨ho', hlive⟩ := List.mem_filter.mp ho'
  rcases List.mem_append.mp hid with hremoved | hid
  · exact h.not_removed ho' (by simpa using hlive) (hsame ▸ hremoved)
  · exact hgone _ hid o' ho' hsame

/-- Whom the engine removes after it is gone from the persisted table as well. -/
theorem gone_removes (h : t.Shaped) (hgone : Gone ids t) (removed : List Kad128) :
    (removed.foldl (fun t id => (t.remove id).2) t).Shaped ∧
      Gone (removed ++ ids) (removed.foldl (fun t id => (t.remove id).2) t) := by
  induction removed generalizing t ids with
  | nil => exact ⟨h, hgone⟩
  | cons id removed ih =>
    have hkept : (t.remove id).2.contacts = t.contacts.filter fun c => c.id ≠ id :=
      Zone.toList_remove id h.wellFormed.ids
    have hgone' : Gone (id :: ids) (t.remove id).2 := by
      intro i hi o ho
      rw [hkept] at ho
      obtain ⟨ho, hne⟩ := List.mem_filter.mp ho
      rcases List.mem_cons.mp hi with rfl | hi
      · exact of_decide_eq_true hne
      · exact hgone i hi o ho
    obtain ⟨hshaped, hrest⟩ := ih (shaped_apply h (.remove id)) hgone'
    refine ⟨hshaped, fun i hi => hrest i ?_⟩
    exact List.perm_middle.symm.subset hi

/-! ## A node that is seeded -/

variable {n : KadGate.World} {c : KadContact} {o : Contact}

/-- The gate refuses a record, or hands it to the table. -/
theorem gated_cases (n : KadGate.World) (c : KadContact) (now : UInt64) :
    ((n.gated (wireContact c) c.verified false now).table = n.table ∧
        accepts n.table n.ipFilter (wireContact c) c.verified = false) ∨
      ((n.gated (wireContact c) c.verified false now).table = (n.table.add c.sighting).2 ∧
        accepts n.table n.ipFilter (wireContact c) c.verified = (n.table.add c.sighting).1) := by
  show (gatedAddContact n.table n.ipFilter (wireContact c) c.verified false now = _ ∧ _) ∨
    (gatedAddContact n.table n.ipFilter (wireContact c) c.verified false now = _ ∧ _)
  unfold gatedAddContact accepts
  cases addressPasses n.ipFilter (wireContact c) with
  | false => exact .inl ⟨rfl, rfl⟩
  | true =>
    cases crowded n.table (wireContact c) with
    | true => exact .inl ⟨rfl, rfl⟩
    | false => exact .inr ⟨rfl, rfl⟩

theorem seedOne_table (n : KadGate.World) (c : KadContact) (now : UInt64) :
    (n.seedOne now c).table =
      if c.udpKey ≠ 0 && (n.gated (wireContact c) c.verified false now).table.contains c.id then
        (n.gated (wireContact c) c.verified false now).table.noteVerifyKey c.id c.ip c.udpKey
          c.udpKeyIp
      else (n.gated (wireContact c) c.verified false now).table :=
  apply_ite KadGate.World.table _ _ _

theorem not_contains {id : Kad128} (h : t.contains id = false) : ∀ o ∈ t.contacts, o.id ≠ id := by
  unfold RoutingTable.contains at h
  simpa using h

/-- Behind the gate a record is loaded as into any table. -/
theorem seedOne_passed {now : UInt64}
    (htable : (n.gated (wireContact c) c.verified false now).table = (n.table.add c.sighting).2) :
    (n.seedOne now c).table.contacts = (n.table.loadNode c).contacts := by
  rw [seedOne_table, htable, RoutingTable.loadNode_eq]
  by_cases hkey : c.udpKey = 0
  · simp [hkey]
  · rw [if_pos hkey]
    cases hknown : (n.table.add c.sighting).2.contains c.id with
    | true => simp [hkey]
    | false =>
      rw [RoutingTable.note_absent (not_contains hknown)]
      simp

/-- A record that the gate refuses leaves all addresses as they are. -/
theorem seedOne_refused (h : n.table.Shaped) {now : UInt64}
    (htable : (n.gated (wireContact c) c.verified false now).table = n.table)
    (ho : o ∈ (n.seedOne now c).table.contacts) : ∃ o' ∈ n.table.contacts, o'.id = o.id := by
  rw [seedOne_table, htable] at ho
  split_ifs at ho
  · obtain ⟨o', ho', hid, -⟩ := RoutingTable.mem_note h ho
    exact ⟨o', ho', hid⟩
  · exact ⟨o, ho, rfl⟩

theorem shaped_seedOne (h : n.table.Shaped) (c : KadContact) (now : UInt64) :
    (n.seedOne now c).table.Shaped := by
  have hgated : (n.gated (wireContact c) c.verified false now).table.Shaped := by
    rcases gated_cases n c now with ⟨htable, -⟩ | ⟨htable, -⟩
    · exact htable ▸ h
    · exact htable ▸ h.add _
  rw [seedOne_table]
  split_ifs
  · exact shaped_apply hgated (.noteVerifyKey c.id c.ip c.udpKey c.udpKeyIp)
  · exact hgated

theorem seed_gone {cs : List KadContact} {now : UInt64} (h : n.table.Shaped)
    (hgone : Gone ids n.table) (hrefuses : Refuses ids now n cs) :
    (cs.foldl (KadGate.World.seedOne now) n).table.Shaped ∧
      Gone ids (cs.foldl (KadGate.World.seedOne now) n).table := by
  induction cs generalizing n with
  | nil => exact ⟨h, hgone⟩
  | cons c cs ih =>
    refine ih (shaped_seedOne h c now) ?_ hrefuses.2
    rintro id hid o ho rfl
    have hsame : ∃ o' ∈ n.table.contacts, o'.id = o.id := by
      rcases gated_cases n c now with ⟨htable, -⟩ | ⟨htable, haccepts⟩
      · exact seedOne_refused h htable ho
      · rw [seedOne_passed htable] at ho
        by_cases hne : o.id = c.id
        · have hrefused := haccepts.symm.trans (hrefuses.1 (hne ▸ hid))
          obtain ⟨o', ho', hid', -⟩ := h.mem_loadNode_of_refused hrefused ho
          exact ⟨o', ho', hid'⟩
        · exact ⟨o, (h.mem_loadNode_of_ne hne).mp ho, rfl⟩
    obtain ⟨o', ho', hid'⟩ := hsame
    exact hgone _ hid o' ho' hid'

theorem seedRouting_gone {selfId : Kad128} {ipFilter : Option IpFilter} {now : UInt64}
    {cs : List KadContact} (hrefuses : Refuses ids now (bindNode selfId ipFilter) cs) :
    (seedRouting selfId ipFilter now cs).Shaped ∧ Gone ids (seedRouting selfId ipFilter now cs) :=
  seed_gone (RoutingTable.shaped_new selfId) (fun _ _ _ ho => absurd ho List.not_mem_nil) hrefuses

/-- Whoever is in the table of a node that was seeded agrees with his record. -/
theorem seedRouting_agrees {selfId : Kad128} {ipFilter : Option IpFilter} {now : UInt64}
    {cs : List KadContact} (hnodup : (cs.map KadContact.id).Nodup)
    (ho : o ∈ (seedRouting selfId ipFilter now cs).contacts) : ∃ c ∈ cs, c.Agrees o.record := by
  have hseeded := agrees_of_foldl (f := KadGate.World.seedOne now)
    (g := fun n => n.table.contacts) (P := fun n => n.table.Shaped)
    (w := bindNode selfId ipFilter) (fun _ c h => shaped_seedOne h c now)
    (fun n c o h ho hne => ?_) (fun n c o h hnew ho hid => ?_) (RoutingTable.shaped_new selfId)
    hnodup (fun _ _ _ hold => absurd hold List.not_mem_nil) ho
  · exact hseeded.resolve_left List.not_mem_nil
  · rcases gated_cases n c now with ⟨htable, -⟩ | ⟨htable, -⟩
    · rw [seedOne_table, htable] at ho
      split_ifs at ho
      · exact (RoutingTable.mem_note_of_ne h hne).mp ho
      · exact ho
    · rw [seedOne_passed htable] at ho
      exact (h.mem_loadNode_of_ne hne).mp ho
  · rcases gated_cases n c now with ⟨htable, -⟩ | ⟨htable, -⟩
    · obtain ⟨o', ho', hid'⟩ := seedOne_refused h htable ho
      exact absurd (hid'.trans hid) (hnew o' ho')
    · rw [seedOne_passed htable] at ho
      exact h.loadNode_new hnew ho hid

/-! ## What a checkpoint writes -/

namespace Store

variable {w w' : Store}

/-- The tables are well formed and have none of the evicted. -/
structure Tidy (w : Store) : Prop where
  routing : w.routing.Shaped
  kad : ∀ t ∈ w.kad, t.Shaped
  gone : Gone w.evicted w.routing
  goneLive : ∀ t ∈ w.kad, Gone w.evicted t

/-- Without a live node, the last one that was dropped is in the persisted table. -/
structure Inv (w : Store) : Prop extends Tidy w where
  kept : w.kad = none → ∀ c ∈ w.outgoing, ∃ o ∈ w.routing.contacts, c.Agrees o.record

theorem nodup_live (h : w.Tidy) :
    ((w.kad.elim [] routingToNodes).map KadContact.id).Nodup := by
  cases hkad : w.kad with
  | none => exact List.nodup_nil
  | some t => exact nodup_routingToNodes (h.kad t hkad)

theorem mem_checkpointed (h : w.Tidy) {r : KadContact} : r ∈ w.checkpointed ↔
    r ∈ w.kad.elim [] routingToNodes ∨ (r ∈ routingToNodes w.routing ∧
      r.id ∉ (w.kad.elim [] routingToNodes).map KadContact.id) := by
  unfold checkpointed checkpointContacts
  rw [mem_puts (nodup_live h), mem_puts (nodup_routingToNodes h.routing)]
  simp

theorem written_reads (hlen : w.checkpointed.length ≤ MAX_NODES) :
    readNodesDat (writeNodesDat ⟨2, w.checkpointed⟩) = .ok ⟨2, w.checkpointed⟩ := by
  rw [readNodesDat_writeNodesDat, List.take_of_length_le hlen]
  rfl

theorem Inv.faithful (h : w.Inv) (hlen : w.checkpointed.length ≤ MAX_NODES) : w.Faithful := by
  have hids : (w.checkpointed.map KadContact.id).Nodup :=
    nodup_puts (nodup_puts (l := []) List.nodup_nil _) _
  refine ⟨hids, fun c hc => ?_, fun r hr => ?_, ⟨_, rfl, written_reads hlen⟩,
    fun selfId ipFilter o ho => ?_, fun selfId ipFilter now o ho => seedRouting_agrees hids ho⟩
  · cases hkad : w.kad with
    | none =>
      unfold held at hc
      rw [hkad] at hc
      obtain ⟨o, ho, hagrees⟩ := h.kept hkad c hc
      refine ⟨o.record, (mem_checkpointed h.toTidy).mpr (.inr ?_), hagrees⟩
      rw [hkad]
      exact ⟨mem_routingToNodes.mpr ⟨o, ho, rfl⟩, List.not_mem_nil⟩
    | some t =>
      unfold held at hc
      rw [hkad] at hc
      refine ⟨c, (mem_checkpointed h.toTidy).mpr (.inl ?_), .refl c⟩
      rw [hkad]
      exact hc
  · rcases (mem_checkpointed h.toTidy).mp hr with hr | ⟨hr, -⟩
    · cases hkad : w.kad with
      | none =>
        rw [hkad] at hr
        exact absurd hr List.not_mem_nil
      | some t =>
        rw [hkad] at hr
        exact (h.goneLive t hkad).notMem hr
    · exact h.gone.notMem hr
  · have hdisk : onDisk (w.checkpoint true).nodesDat = w.checkpointed := by
      show ((readNodesDat (writeNodesDat ⟨2, w.checkpointed⟩)).toOption.map _).getD _ = _
      rw [written_reads hlen]
      rfl
    have hload : o ∈ ((RoutingTable.new selfId).loadNodes
        (gateLoadedNodes (onDisk (w.checkpoint true).nodesDat) ipFilter)).contacts := ho
    rw [hdisk] at hload
    have hsub : (gateLoadedNodes w.checkpointed ipFilter).Sublist w.checkpointed :=
      List.filter_sublist
    rcases (RoutingTable.shaped_new selfId).loadNodes_new (hids.sublist (hsub.map _))
      (fun _ _ _ hold => absurd hold List.not_mem_nil) hload with hold | ⟨r, hr, hagrees⟩
    · exact absurd hold List.not_mem_nil
    · exact ⟨r, hsub.subset hr, hagrees⟩

/-! ## One step -/

theorem inv_launch (selfId : Kad128) (ipFilter : Option IpFilter) (nodesDat : Option Bytes) :
    (launch selfId ipFilter nodesDat).Inv where
  routing := (RoutingTable.shaped_new selfId).loadNodes _
  kad _ ht := absurd ht (by simp [launch])
  gone _ hid := absurd hid List.not_mem_nil
  goneLive _ _ _ hid := absurd hid List.not_mem_nil
  kept _ _ hc := absurd hc List.not_mem_nil

theorem Tidy.absorb (h : w.Tidy) : w.absorbKadRouting.Tidy := by
  unfold absorbKadRouting
  cases hkad : w.kad with
  | none => exact ⟨h.routing, hkad ▸ h.kad, h.gone, hkad ▸ h.goneLive⟩
  | some t =>
    have hgone := h.gone.loadNodes h.routing fun c hc => (h.goneLive t hkad).notMem hc
    exact ⟨h.routing.loadNodes _, hkad ▸ h.kad, hgone, hkad ▸ h.goneLive⟩

theorem absorb_of_none (h : w.kad = none) : w.absorbKadRouting = w := by
  obtain ⟨routing, kad, ipFilter, nodesDat, outgoing, evicted⟩ := w
  cases h
  rfl

theorem Inv.absorb (h : w.Inv) : w.absorbKadRouting.Inv := by
  refine ⟨h.toTidy.absorb, fun hkad => ?_⟩
  have hkad : w.kad = none := hkad
  rw [absorb_of_none hkad]
  exact h.kept hkad

/-- A node that is dropped is remembered exactly when the persisted table carries it. -/
theorem drop_remembers_iff (h : w.Tidy) {t : RoutingTable} (hkad : w.kad = some t) :
    (∀ c ∈ (w.setKad none).held, ∃ o ∈ (w.setKad none).routing.contacts, c.Agrees o.record) ↔
      w.routing.CarriesAll (routingToNodes t) := by
  rw [← h.routing.carriesAll_iff (nodup_routingToNodes (h.kad t hkad))]
  unfold setKad held absorbKadRouting
  rw [hkad]
  exact Iff.rfl

theorem Inv.drop (h : w.Inv) (hcarries : ∀ t ∈ w.kad, w.routing.CarriesAll (routingToNodes t)) :
    (w.setKad none).Inv := by
  have hnone : ∀ t, t ∉ (none : Option RoutingTable) := fun t ht => by simp at ht
  refine ⟨⟨h.absorb.routing, fun t ht => absurd ht (hnone t), h.absorb.gone,
    fun t ht => absurd ht (hnone t)⟩, fun _ => ?_⟩
  cases hkad : w.kad with
  | none =>
    have hheld : (w.setKad none).outgoing = w.outgoing := by
      unfold setKad held
      rw [hkad]
      rfl
    rw [hheld]
    show ∀ c ∈ w.outgoing, ∃ o ∈ w.absorbKadRouting.routing.contacts, _
    rw [absorb_of_none hkad]
    exact h.kept hkad
  | some t => exact (drop_remembers_iff h.toTidy hkad).mpr (hcarries t hkad)

theorem Inv.start (h : w.Inv) {bound : Bool} {now : UInt64} {heard : List NodeOp}
    (hrefuses : bound = true →
      Refuses w.evicted now (bindNode w.routing.selfId w.ipFilter) w.dialList) :
    (w.startKad bound now heard).Inv := by
  unfold startKad
  dsimp only
  split_ifs with hempty hbound
  · exact h
  · exact h
  · obtain ⟨hseeded, hgone⟩ := seedRouting_gone (hrefuses (by simpa using hbound))
    obtain ⟨hnode, hfresh⟩ := receive_gone hseeded hgone heard
    have hless := receive_subset (seedRouting w.routing.selfId w.ipFilter now w.dialList) w.evicted
      heard
    generalize receive (seedRouting w.routing.selfId w.ipFilter now w.dialList, w.evicted)
      heard = r at hnode hfresh hless ⊢
    have hloaded : Tidy { w with
        routing := w.routing.loadNodes (routingToNodes r.1), evicted := r.2 } := by
      refine ⟨h.routing.loadNodes _, h.kad, ?_, fun t ht => (h.goneLive t ht).mono hless⟩
      exact (h.gone.mono hless).loadNodes h.routing fun c hc => hfresh.notMem hc
    refine ⟨⟨hloaded.absorb.routing, fun t ht => ?_, hloaded.absorb.gone, fun t ht => ?_⟩,
      fun hnone => absurd hnone (by simp [setKad])⟩
    · exact Option.some.inj ht ▸ hnode
    · exact Option.some.inj ht ▸ hfresh

theorem Inv.receive (h : w.Inv) {t : RoutingTable} (hkad : w.kad = some t) (op : NodeOp) :
    Inv { w with
      kad := some (KadCheckpoint.receive (t, w.evicted) [op]).1
      evicted := (KadCheckpoint.receive (t, w.evicted) [op]).2 } := by
  obtain ⟨hshaped, hgone⟩ := receive_gone (h.kad t hkad) (h.goneLive t hkad) [op]
  refine ⟨⟨h.routing, fun u hu => Option.some.inj hu ▸ hshaped,
    h.gone.mono (receive_subset t w.evicted [op]), fun u hu => Option.some.inj hu ▸ hgone⟩,
    fun hnone => absurd hnone (by simp)⟩

theorem Inv.liveness (h : w.Inv) (now : UInt64) (heard : List NodeOp) :
    (w.maintainKadLiveness now heard).Inv := by
  unfold maintainKadLiveness
  cases hkad : w.kad with
  | none => exact h
  | some t =>
    have hswept := gone_sweep (h.kad t hkad) (h.goneLive t hkad) now KAD_SWEEP_MAX_PROBES
    have hshaped := shaped_apply (h.kad t hkad) (.sweep now KAD_SWEEP_MAX_PROBES)
    obtain ⟨hnode, hfresh⟩ := receive_gone hshaped hswept heard
    obtain ⟨hrouting, hgone⟩ := gone_removes h.routing h.gone
      (t.sweep now KAD_SWEEP_MAX_PROBES).1.removed
    exact ⟨⟨hrouting, fun u hu => Option.some.inj hu ▸ hnode,
      hgone.mono (receive_subset _ _ heard), fun u hu => Option.some.inj hu ▸ hfresh⟩,
      fun hnone => absurd hnone (by simp)⟩

theorem inv_step {e : KadEvent} (h : w.Inv) (hok : w.Harmless e) (hstep : w.step e = some w') :
    w'.Inv := by
  cases e with
  | receive op =>
    obtain ⟨t, hkad, rfl⟩ := Option.map_eq_some_iff.mp hstep
    exact h.receive hkad op
  | liveness now heard =>
    cases hstep
    exact h.liveness now heard
  | absorb =>
    cases hstep
    exact h.absorb
  | drop =>
    cases hstep
    exact h.drop hok
  | start bound now heard =>
    cases hstep
    exact h.start hok
  | setIpFilter ipFilter =>
    cases hstep
    exact ⟨⟨h.routing, h.kad, h.gone, h.goneLive⟩, h.kept⟩
  | checkpoint written =>
    cases hstep
    exact ⟨⟨h.routing, h.kad, h.gone, h.goneLive⟩, h.kept⟩

/-- In every state of a run a checkpoint forgets nobody and brings nobody back, as long as the
    persisted table carries every node that is dropped and no node that starts takes in somebody
    whom a sweep evicted. -/
theorem pausing_keeps (selfId : Kad128) (ipFilter : Option IpFilter) (nodesDat : Option Bytes)
    (events : List KadEvent)
    (h : Runs.Throughout step Harmless (launch selfId ipFilter nodesDat) events) :
    Runs.Always step Keeps (launch selfId ipFilter nodesDat) events :=
  Runs.always_of_throughout (fun _ _ _ hinv hok hstep => inv_step hinv hok hstep)
    (fun _ hinv hlen => hinv.faithful hlen) (inv_launch selfId ipFilter nodesDat) h

/-- Two contacts of `nodes.dat`, one of which a sweep evicts while another is learned; after a
    checkpoint Kad is switched off and on. -/
theorem pausing_keeps_session :
    Runs.Always step Keeps
      (launch ⟨0, 0, 0, 0⟩ none (some (writeNodesDat ⟨2,
        [⟨⟨1, 0, 0, 0⟩, 0x55010101, 4672, 4662, 8, 7, 9, true⟩,
          ⟨⟨0x80000000, 0, 0, 0⟩, 0x55020202, 4672, 4662, 8, 0, 0, false⟩]⟩)))
      [.start true 0 [.setAlive ⟨1, 0, 0, 0⟩ 0], .liveness 60 [],
        .receive (.add ⟨⟨2, 0, 0, 0⟩, 0x55030303, 4672, 4662, 9, true⟩), .liveness 120 [],
        .liveness 300 [], .checkpoint true, .drop, .start true 301 []] :=
  pausing_keeps _ _ _ _ (by decide +kernel)

/-- `nodes.dat` at the start, with one contact. -/
def oneContact : Option Bytes :=
  some (writeNodesDat ⟨2, [⟨⟨1, 0, 0, 0⟩, 0x55010101, 4672, 4662, 8, 7, 9, true⟩]⟩)

/-- The contact gives up its key and moves; Kad is switched off. -/
def moves : List KadEvent :=
  [.start true 0 [], .receive (.noteVerifyKey ⟨1, 0, 0, 0⟩ 0x55010101 0 9),
    .receive (.add ⟨⟨1, 0, 0, 0⟩, 0x55020202, 4672, 4662, 8, false⟩), .drop]

/-- The contact does not answer; Kad is switched off and on. -/
def dies : List KadEvent :=
  [.start true 0 [], .liveness 60 [], .liveness 120 [], .liveness 300 [], .drop, .start true 301 []]

theorem not_always {s : Store} {events : List KadEvent} {bad : Store → Bool}
    (hrun : (Runs.run step s events).any bad = true) (hbad : ∀ w, bad w = true → ¬w.Keeps) :
    ¬Runs.Always step Keeps s events := by
  intro halways
  cases hw : Runs.run step s events with
  | none =>
    rw [hw] at hrun
    exact absurd hrun (by simp)
  | some w =>
    rw [hw] at hrun
    exact hbad w hrun (halways.run hw)

/-- Whoever moved is written with the address that the persisted table keeps with its key, and
    whoever was evicted is back from the `nodes.dat` of the start. -/
theorem pausing_loses_and_resurrects :
    ¬Runs.Always step Keeps (launch ⟨0, 0, 0, 0⟩ none oneContact) moves ∧
      ¬Runs.Always step Keeps (launch ⟨0, 0, 0, 0⟩ none oneContact) dies := by
  constructor
  · have hlost : (Runs.run step (launch ⟨0, 0, 0, 0⟩ none oneContact) moves).any (fun w =>
        decide (w.checkpointed.length ≤ MAX_NODES ∧
          ¬∀ c ∈ w.held, ∃ r ∈ w.checkpointed, r.ip = c.ip)) = true := by decide +kernel
    refine not_always hlost fun w hw hkeeps => ?_
    obtain ⟨hlen, hlost⟩ := of_decide_eq_true hw
    refine hlost fun c hc => ?_
    obtain ⟨r, hr, hagrees⟩ := (hkeeps hlen).remembers c hc
    exact ⟨r, hr, hagrees.ip⟩
  · have hback : (Runs.run step (launch ⟨0, 0, 0, 0⟩ none oneContact) dies).any (fun w =>
        decide (w.checkpointed.length ≤ MAX_NODES ∧
          ∃ r ∈ w.checkpointed, r.id ∈ w.evicted)) = true := by decide +kernel
    refine not_always hback fun w hw hkeeps => ?_
    obtain ⟨hlen, r, hr, hid⟩ := of_decide_eq_true hw
    exact (hkeeps hlen).forgets r hr hid

end Store

end PadMule.Engine.KadCheckpoint
