import PadMule.Engine.PeerSources
import PadMule.Kad.Eviction
import PadMule.Kad.Message

/-
  `mule-engine/src/kad_live.rs`: the insert gate of the live routing table.

  Whatever is learned on the wire or from a seed list enters the table through `gatedAddContact`:
  it tests the address, the port and the user's blocklist and counts the contacts on the same ip and
  /24, and the table itself may still refuse, update or move the contact.
  `World` is a live table with the blocklist that is loaded and, as history, what was last placed
  for each id. A step is made of moves that give nobody a lease, but for the lease of a gated call;
  the invariant `Guarded` and the leases (`SameLeases`) follow from what one move does.
-/

namespace PadMule.Engine.KadGate

open PadMule.Proto PadMule.Kad

def isAcceptableContact (ip : UInt32) (udpPort : UInt16) (allowPrivate : Bool) : Bool :=
  udpPort ≠ 0 && isAcceptableContactIp ip allowPrivate

/-- The tests of an address that need no table: routable, not the DNS port of an old node, and not
    in the blocklist. -/
def addressPasses (ipFilter : Option IpFilter) (c : WireContact) : Bool :=
  isAcceptableContact c.ip c.udpPort false && !(c.udpPort = 53 && c.version ≤ 5) &&
    !ipFilter.any fun f => f.isBlocked c.ip

/-- No room at the address for a contact that is not held there. -/
def crowded (t : RoutingTable) (c : WireContact) : Bool :=
  let refresh := t.ipOf c.id = some c.ip
  c.ip ≠ 0 && !refresh && (MAX_CONTACTS_PER_IP ≤ (t.ipCounts c.ip).1 ||
    MAX_CONTACTS_PER_SUBNET ≤ (t.ipCounts c.ip).2)

def sighting (c : WireContact) (verified : Bool) : Sighting :=
  ⟨c.id, c.ip, c.udpPort, c.tcpPort, c.version, verified⟩

/-- The table lets the contact in. -/
def accepts (t : RoutingTable) (ipFilter : Option IpFilter) (c : WireContact) (verified : Bool) :
    Bool := addressPasses ipFilter c && !crowded t c && (t.add (sighting c verified)).1

def gatedAddContact (t : RoutingTable) (ipFilter : Option IpFilter) (c : WireContact)
    (verified provenAlive : Bool) (now : UInt64) : RoutingTable :=
  if !addressPasses ipFilter c then t
  else if crowded t c then t
  else
    let known := t.contains c.id
    let r := t.add (sighting c verified)
    if provenAlive && known && r.1 then (r.2.setAlive c.id now).2 else r.2

/-- A contact as it was placed, under the blocklist of that moment. -/
structure Placement where
  contact : WireContact
  ipFilter : Option IpFilter

structure World where
  table : RoutingTable
  ipFilter : Option IpFilter
  /-- The last contact let in for an id. -/
  placed : Kad128 → Option Placement

/-- A node starts with an empty table and no blocklist. -/
def World.new (selfId : Kad128) : World := ⟨.new selfId, none, fun _ => none⟩

inductive LiveOp where
  | gated (c : WireContact) (verified provenAlive : Bool) (now : UInt64)
  | setIpFilter (ipFilter : Option IpFilter)
  | seed (contacts : List KadContact) (now : UInt64)
  | sweep (now : UInt64) (maxProbes : Nat)
  | remove (id : Kad128)
  | noteVerifyKey (id : Kad128) (ip key keyIp : UInt32)
  | verifyContact (id : Kad128) (ip : UInt32)

namespace World

def gated (w : World) (c : WireContact) (verified provenAlive : Bool) (now : UInt64) : World :=
  { w with
    table := gatedAddContact w.table w.ipFilter c verified provenAlive now
    placed := if accepts w.table w.ipFilter c verified then
        Function.update w.placed c.id (some ⟨c, w.ipFilter⟩)
      else w.placed }

/-- One record of `seed_routing`. -/
def seedOne (now : UInt64) (w : World) (c : KadContact) : World :=
  let w := w.gated ⟨c.id, c.ip, c.udpPort, c.tcpPort, c.version⟩ c.verified false now
  if c.udpKey ≠ 0 && w.table.contains c.id then
    { w with table := w.table.noteVerifyKey c.id c.ip c.udpKey c.udpKeyIp }
  else w

def step (w : World) : LiveOp → World
  | .gated c verified provenAlive now => w.gated c verified provenAlive now
  | .setIpFilter ipFilter => { w with ipFilter }
  | .seed contacts now => contacts.foldl (seedOne now) w
  | .sweep now maxProbes => { w with table := (w.table.sweep now maxProbes).2 }
  | .remove id => { w with table := (w.table.remove id).2 }
  | .noteVerifyKey id ip key keyIp => { w with table := w.table.noteVerifyKey id ip key keyIp }
  | .verifyContact id ip => { w with table := (w.table.verifyContact id ip).2 }

def run (w : World) (ops : List LiveOp) : World := ops.foldl step w

end World

/-! ## What a step is made of -/

/-- What the wire says of a contact of the table. -/
def wire (c : Contact) : WireContact := ⟨c.id, c.ip, c.udpPort, c.tcpPort, c.version⟩

/-- A table operation that neither lets anybody in nor gives a lease. -/
def Quiet : RoutingOp → Prop
  | .remove _ | .sweep .. | .noteVerifyKey .. | .verifyContact .. => True
  | .add _ | .loadNodes _ | .setAlive .. => False

theorem wire_apply {t : RoutingTable} (h : t.Shaped) {op : RoutingOp} (hquiet : Quiet op)
    {c' : Contact} (hc' : c' ∈ (t.apply op).contacts) : ∃ c ∈ t.contacts, wire c = wire c' := by
  have halter {id : Kad128} {f : Contact → Contact} (hf : ∀ c, wire (f c) = wire c)
      (hc' : c' ∈ (t.root.alter id f).2.toList) : ∃ c ∈ t.contacts, wire c = wire c' := by
    rcases (Zone.touched_alter id f t.root).mem h.wellFormed.ids hc' with ⟨hc, -⟩ | ⟨o, ho, -, rfl⟩
    · exact ⟨c', hc, rfl⟩
    · exact ⟨o, ho, (hf o).symm⟩
  cases op with
  | add | loadNodes | setAlive => exact hquiet.elim
  | remove id =>
    have hkept : c' ∈ (Zone.remove id t.root).2.toList := hc'
    rw [Zone.toList_remove id h.wellFormed.ids] at hkept
    exact ⟨c', (List.mem_filter.mp hkept).1, rfl⟩
  | sweep now maxProbes =>
    have haged (c : Contact) : wire (c.aged now) = wire c := by
      unfold Contact.aged
      split_ifs <;> rfl
    obtain ⟨c, hc, -, rfl | ⟨-, rfl, -⟩⟩ := (t.swept now maxProbes).kept c' hc'
    · exact ⟨c, hc, (haged c).symm⟩
    · exact ⟨c, hc, (haged c).symm⟩
  | noteVerifyKey id ip key keyIp => exact halter (fun c => by split_ifs <;> rfl) hc'
  | verifyContact id ip => exact halter (fun c => by split_ifs <;> rfl) hc'

theorem countIps_apply (t : RoutingTable) {op : RoutingOp} (hquiet : Quiet op)
    (kind : UInt32 → Bool) : (t.apply op).countIps kind ≤ t.countIps kind := by
  cases op with
  | add | loadNodes | setAlive => exact hquiet.elim
  | remove id => exact RoutingTable.countIps_shrinks (Zone.rel_remove id t.root) kind
  | sweep now maxProbes =>
    exact RoutingTable.countIps_shrinks (Zone.rel_sweep now maxProbes t.root _) kind
  | noteVerifyKey id ip key keyIp =>
    exact RoutingTable.countIps_shrinks (t.rel_noteVerifyKey id ip key keyIp) kind
  | verifyContact id ip => exact RoutingTable.countIps_shrinks (t.rel_verifyContact id ip) kind

namespace World

/-- The add of a gated call, past the tests. -/
def enter (w : World) (c : WireContact) (verified : Bool) : World :=
  { w with
    table := (w.table.add (sighting c verified)).2
    placed := if (w.table.add (sighting c verified)).1 then
        Function.update w.placed c.id (some ⟨c, w.ipFilter⟩)
      else w.placed }

/-- The moves that give nobody a lease. -/
inductive Move (w : World) : World → Prop where
  | filter (ipFilter : Option IpFilter) : Move w { w with ipFilter }
  | enter {c : WireContact} (verified : Bool) (hpass : addressPasses w.ipFilter c = true)
      (hroom : crowded w.table c = false) : Move w (w.enter c verified)
  | quiet (op : RoutingOp) (hquiet : Quiet op) : Move w { w with table := w.table.apply op }

abbrev Moves : World → World → Prop := Relation.ReflTransGen Move

/-- A gated call makes one move at most, and gives a lease only for a known contact that it proves
    alive and that the table let in. -/
theorem moves_gated (w : World) (c : WireContact) (verified provenAlive : Bool) (now : UInt64) :
    ∃ w₁, Moves w w₁ ∧ (w.gated c verified provenAlive now = w₁ ∨
      (provenAlive = true ∧ w.table.contains c.id = true ∧
        accepts w.table w.ipFilter c verified = true ∧
        w.gated c verified provenAlive now =
          { w₁ with table := (w₁.table.setAlive c.id now).2 })) := by
  unfold gated gatedAddContact
  by_cases hpass : addressPasses w.ipFilter c = true
  · by_cases hroom : crowded w.table c = true
    · refine ⟨w, .refl, .inl ?_⟩
      have haccepts : accepts w.table w.ipFilter c verified = false := by
        unfold accepts
        rw [hroom, Bool.not_true, Bool.and_false, Bool.false_and]
      rw [haccepts, hpass, hroom]
      rfl
    · have hroom : crowded w.table c = false := by simpa using hroom
      have haccepts : accepts w.table w.ipFilter c verified =
          (w.table.add (sighting c verified)).1 := by
        unfold accepts
        rw [hpass, hroom, Bool.not_false, Bool.true_and, Bool.true_and]
      refine ⟨w.enter c verified, .single (.enter verified hpass hroom), ?_⟩
      rw [haccepts, hpass, hroom]
      dsimp only
      by_cases hrenews : (provenAlive && w.table.contains c.id &&
          (w.table.add (sighting c verified)).1) = true
      · rw [if_neg (by decide), if_neg (by decide), if_pos hrenews]
        rw [Bool.and_eq_true, Bool.and_eq_true] at hrenews
        exact .inr ⟨hrenews.1.1, hrenews.1.2, hrenews.2, rfl⟩
      · rw [if_neg (by decide), if_neg (by decide), if_neg hrenews]
        exact .inl rfl
  · have hpass : addressPasses w.ipFilter c = false := by simpa using hpass
    refine ⟨w, .refl, .inl ?_⟩
    have haccepts : accepts w.table w.ipFilter c verified = false := by
      unfold accepts
      rw [hpass, Bool.false_and, Bool.false_and]
    rw [haccepts, hpass]
    rfl

theorem moves_seedOne (now : UInt64) (w : World) (c : KadContact) : Moves w (w.seedOne now c) := by
  obtain ⟨w₁, hmoves, hgated | ⟨hfalse, -⟩⟩ := w.moves_gated
    ⟨c.id, c.ip, c.udpPort, c.tcpPort, c.version⟩ c.verified false now
  · unfold seedOne
    rw [hgated]
    dsimp only
    split_ifs
    · exact hmoves.tail (.quiet (.noteVerifyKey c.id c.ip c.udpKey c.udpKeyIp) trivial)
    · exact hmoves
  · exact absurd hfalse (by decide)

theorem moves_seed (now : UInt64) (w : World) (contacts : List KadContact) :
    Moves w (contacts.foldl (seedOne now) w) := by
  induction contacts generalizing w with
  | nil => exact .refl
  | cons c contacts ih => exact (w.moves_seedOne now c).trans (ih (w.seedOne now c))

/-- Every step is made of moves, but for the lease of a gated call. -/
theorem moves_step (w : World) (op : LiveOp) :
    Moves w (w.step op) ∨ ∃ c verified now w₁, op = .gated c verified true now ∧
      w.table.contains c.id = true ∧ accepts w.table w.ipFilter c verified = true ∧ Moves w w₁ ∧
      w.step op = { w₁ with table := (w₁.table.setAlive c.id now).2 } := by
  cases op with
  | gated c verified provenAlive now =>
    obtain ⟨w₁, hmoves, hgated | ⟨rfl, hknown, haccepts, hgated⟩⟩ :=
      w.moves_gated c verified provenAlive now
    · refine .inl ?_
      rw [step, hgated]
      exact hmoves
    · exact .inr ⟨c, verified, now, w₁, rfl, hknown, haccepts, hmoves, hgated⟩
  | setIpFilter ipFilter => exact .inl (.single (.filter ipFilter))
  | seed contacts now => exact .inl (w.moves_seed now contacts)
  | sweep now maxProbes => exact .inl (.single (.quiet (.sweep now maxProbes) trivial))
  | remove id => exact .inl (.single (.quiet (.remove id) trivial))
  | noteVerifyKey id ip key keyIp =>
    exact .inl (.single (.quiet (.noteVerifyKey id ip key keyIp) trivial))
  | verifyContact id ip => exact .inl (.single (.quiet (.verifyContact id ip) trivial))

/-! ## The invariant -/

structure Guarded (selfId : Kad128) (w : World) : Prop where
  reached : ∃ ops, w.table = (RoutingTable.new selfId).run ops
  placed : ∀ c ∈ w.table.contacts, ∃ p, w.placed c.id = some p ∧ p.contact = wire c ∧
    addressPasses p.ipFilter p.contact = true
  sparse : ∀ ip, w.table.countIps (· = ip) ≤ MAX_CONTACTS_PER_IP ∧
    w.table.countIps (net24 · = net24 ip) ≤ MAX_CONTACTS_PER_SUBNET

variable {selfId : Kad128} {w w' : World}

theorem Guarded.shaped (h : Guarded selfId w) : w.table.Shaped := by
  obtain ⟨ops, htable⟩ := h.reached
  rw [htable]
  exact (RoutingTable.shaped_new selfId).run ops

theorem Guarded.reached_apply (h : Guarded selfId w) (op : RoutingOp) :
    ∃ ops, w.table.apply op = (RoutingTable.new selfId).run ops := by
  obtain ⟨ops, htable⟩ := h.reached
  exact ⟨ops ++ [op], by rw [RoutingTable.run_concat, htable]⟩

theorem guarded_new (selfId : Kad128) : Guarded selfId (World.new selfId) where
  reached := ⟨[], rfl⟩
  placed _ hc := absurd hc List.not_mem_nil
  sparse _ := ⟨Nat.zero_le _, Nat.zero_le _⟩

/-- A table without anybody new. -/
theorem Guarded.shrink (h : Guarded selfId w) {t : RoutingTable}
    (hreached : ∃ ops, t = (RoutingTable.new selfId).run ops)
    (hwire : ∀ c' ∈ t.contacts, ∃ c ∈ w.table.contacts, wire c = wire c')
    (hcount : ∀ kind, t.countIps kind ≤ w.table.countIps kind) :
    Guarded selfId { w with table := t } where
  reached := hreached
  placed c' hc' := by
    obtain ⟨c, hc, hsame⟩ := hwire c' hc'
    have hid : c.id = c'.id := congrArg WireContact.id hsame
    rw [← hid, ← hsame]
    exact h.placed c hc
  sparse ip := ⟨(hcount _).trans (h.sparse ip).1, (hcount _).trans (h.sparse ip).2⟩

theorem wire_replacing (t : RoutingTable) (c : WireContact) (verified : Bool) (old : Contact) :
    wire ((t.contact (sighting c verified)).replacing old) = c := by
  obtain ⟨hid, hip, hversion, -⟩ := (t.contact (sighting c verified)).replacing_fields old
  obtain ⟨hudp, htcp⟩ := (t.contact (sighting c verified)).replacing_ports old
  unfold wire
  rw [hid, hip, hversion, hudp, htcp]
  rfl

theorem not_crowded {t : RoutingTable} {ipFilter : Option IpFilter} {c : WireContact}
    (hpass : addressPasses ipFilter c = true) (hroom : crowded t c = false)
    (hmoved : t.ipOf c.id ≠ some c.ip) : t.countIps (· = c.ip) < MAX_CONTACTS_PER_IP ∧
      t.countIps (net24 · = net24 c.ip) < MAX_CONTACTS_PER_SUBNET := by
  have hip : c.ip ≠ 0 := fun hzero => by
    unfold addressPasses isAcceptableContact isAcceptableContactIp at hpass
    rw [if_pos hzero, Bool.and_false, Bool.false_and, Bool.false_and] at hpass
    exact absurd hpass (by decide)
  unfold crowded at hroom
  rw [t.ipCounts_eq] at hroom
  simpa [hip, hmoved] using hroom

theorem Guarded.enter (h : Guarded selfId w) {c : WireContact} (verified : Bool)
    (hpass : addressPasses w.ipFilter c = true) (hroom : crowded w.table c = false) :
    Guarded selfId (w.enter c verified) where
  reached := h.reached_apply (.add (sighting c verified))
  placed c' hc' := by
    have hplaced (hadd : (w.table.add (sighting c verified)).1 = true) (hwire : wire c' = c) :
        ∃ p, (w.enter c verified).placed c'.id = some p ∧ p.contact = wire c' ∧
          addressPasses p.ipFilter p.contact = true := by
      have hid : c'.id = c.id := congrArg WireContact.id hwire
      refine ⟨⟨c, w.ipFilter⟩, ?_, hwire.symm, hpass⟩
      unfold World.enter
      rw [if_pos hadd, hid]
      exact Function.update_self ..
    rcases h.shaped.mem_add hc' with ⟨hc, hrefused⟩ | ⟨hadd, old, -, -, -, rfl⟩ | ⟨hadd, -, rfl⟩
    · have hkept : (w.enter c verified).placed c'.id = w.placed c'.id := by
        unfold World.enter
        dsimp only
        split_ifs with hadd
        · refine Function.update_of_ne (fun hid => ?_) ..
          exact absurd (hadd.symm.trans (hrefused hid)) (by decide)
        · rfl
      rw [hkept]
      exact h.placed c' hc
    · exact hplaced hadd (wire_replacing w.table c verified old)
    · exact hplaced hadd rfl
  sparse ip := by
    have hadd (kind : UInt32 → Bool) := h.shaped.countIps_add (sighting c verified) kind
    constructor
    · rcases hadd (· = ip) with hle | ⟨hsame, -, hnew, hle⟩
      · exact hle.trans (h.sparse ip).1
      · have hroom := (not_crowded hpass hroom (RoutingTable.ipOf_ne_of_not_holds hnew)).1
        rw [decide_eq_true_eq] at hsame
        exact hle.trans (hsame ▸ hroom)
    · rcases hadd (net24 · = net24 ip) with hle | ⟨hsame, -, hnew, hle⟩
      · exact hle.trans (h.sparse ip).2
      · have hroom := (not_crowded hpass hroom (RoutingTable.ipOf_ne_of_not_holds hnew)).2
        rw [decide_eq_true_eq] at hsame
        exact hle.trans (hsame ▸ hroom)

theorem Guarded.move (h : Guarded selfId w) (hmove : Move w w') : Guarded selfId w' := by
  cases hmove with
  | filter ipFilter => exact ⟨h.reached, h.placed, h.sparse⟩
  | enter verified hpass hroom => exact h.enter verified hpass hroom
  | quiet op hquiet =>
    exact h.shrink (h.reached_apply _) (fun c' => wire_apply h.shaped hquiet)
      (countIps_apply w.table hquiet)

theorem Guarded.moves (h : Guarded selfId w) (hmoves : Moves w w') : Guarded selfId w' := by
  induction hmoves with
  | refl => exact h
  | tail _ hmove ih => exact ih.move hmove

theorem Guarded.setAlive (h : Guarded selfId w) (id : Kad128) (now : UInt64) :
    Guarded selfId { w with table := (w.table.setAlive id now).2 } := by
  refine h.shrink (h.reached_apply (.setAlive id now)) (fun c' hc' => ?_)
    (RoutingTable.countIps_shrinks (Zone.rel_setAlive id now w.table.root))
  rcases (Zone.touched_setAlive id now w.table.root).mem h.shaped.wellFormed.ids hc' with
    ⟨hc, -⟩ | ⟨o, ho, -, rfl⟩
  · exact ⟨c', hc, rfl⟩
  · exact ⟨o, ho, rfl⟩

theorem Guarded.step (h : Guarded selfId w) (op : LiveOp) : Guarded selfId (w.step op) := by
  rcases w.moves_step op with hmoves | ⟨c, verified, now, w₁, -, -, -, hmoves, heq⟩
  · exact h.moves hmoves
  · rw [heq]
    exact (h.moves hmoves).setAlive c.id now

theorem guarded_run (selfId : Kad128) (ops : List LiveOp) :
    Guarded selfId ((World.new selfId).run ops) := by
  have hrun (w : World) (h : Guarded selfId w) : Guarded selfId (w.run ops) := by
    induction ops generalizing w with
    | nil => exact h
    | cons op ops ih => exact ih (w.step op) (h.step op)
  exact hrun _ (guarded_new selfId)

/-! ## Leases -/

/-- Who is alive in the one table has been so in the other, with the same lease. -/
def SameLeases (t t' : RoutingTable) : Prop :=
  ∀ c' ∈ t'.contacts, c'.kadType = KAD_TYPE_ALIVE → ∃ c ∈ t.contacts, c.id = c'.id ∧
    c.kadType = KAD_TYPE_ALIVE ∧ c.expires = c'.expires

theorem SameLeases.trans {t t' t'' : RoutingTable} (h : SameLeases t t') (h' : SameLeases t' t'') :
    SameLeases t t'' := fun c'' hc'' halive => by
  obtain ⟨c', hc', hid', halive', hsame'⟩ := h' c'' hc'' halive
  obtain ⟨c, hc, hid, halive, hsame⟩ := h c' hc' halive'
  exact ⟨c, hc, hid.trans hid', halive, hsame.trans hsame'⟩

theorem Guarded.lease_apply (h : Guarded selfId w) (op : RoutingOp) {c' : Contact}
    (hc' : c' ∈ (w.table.apply op).contacts) (halive : c'.kadType = KAD_TYPE_ALIVE) :
    (∃ c ∈ w.table.contacts, c.id = c'.id ∧ c.kadType = KAD_TYPE_ALIVE ∧ c.expires = c'.expires) ∨
    ∃ now, op = .setAlive c'.id now ∧ c'.expires = some (now + ALIVE_LEASE_SECS) := by
  have hfate := h.shaped.fate hc'
  obtain ⟨ops, htable⟩ := h.reached
  rw [htable] at hfate ⊢
  exact (RoutingTable.walk_run selfId ops).lease_step (RoutingTable.leased_run selfId ops) hfate
    halive

theorem Guarded.sameLeases_move (h : Guarded selfId w) (hmove : Move w w') :
    SameLeases w.table w'.table := by
  cases hmove with
  | filter ipFilter => exact fun c hc halive => ⟨c, hc, rfl, halive, rfl⟩
  | @enter c verified hpass hroom =>
    intro c' hc' halive
    rcases h.lease_apply (.add (sighting c verified)) hc' halive with hsame | ⟨now, heq, -⟩
    · exact hsame
    · cases heq
  | quiet op hquiet =>
    intro c' hc' halive
    rcases h.lease_apply op hc' halive with hsame | ⟨now, rfl, -⟩
    · exact hsame
    · exact hquiet.elim

theorem Guarded.sameLeases_moves (h : Guarded selfId w) (hmoves : Moves w w') :
    SameLeases w.table w'.table := by
  induction hmoves with
  | refl => exact fun c hc halive => ⟨c, hc, rfl, halive, rfl⟩
  | tail hmoves hmove ih => exact ih.trans ((h.moves hmoves).sameLeases_move hmove)

/-- After any run: every contact has the address it was last let in with, which is public, not the
    DNS port of an old node and was not blocked then; no ip and no /24 has more than its share;
    and whoever is alive after a further step has the lease it had before, or the step is a call
    that proves it alive and that the table accepted. -/
theorem gate_holds (selfId : Kad128) (ops : List LiveOp) :
    (∀ c ∈ ((World.new selfId).run ops).table.contacts, ∃ p,
      ((World.new selfId).run ops).placed c.id = some p ∧ p.contact = wire c ∧
      isAcceptableContact c.ip c.udpPort false = true ∧ ¬(c.udpPort = 53 ∧ c.version ≤ 5) ∧
      ∀ f, p.ipFilter = some f → f.isBlocked c.ip = false) ∧
    (∀ ip, (((World.new selfId).run ops).table.ipCounts ip).1 ≤ MAX_CONTACTS_PER_IP ∧
      (((World.new selfId).run ops).table.ipCounts ip).2 ≤ MAX_CONTACTS_PER_SUBNET) ∧
    ∀ op, ∀ c' ∈ (((World.new selfId).run ops).step op).table.contacts,
      c'.kadType = KAD_TYPE_ALIVE →
      (∃ c ∈ ((World.new selfId).run ops).table.contacts, c.id = c'.id ∧
        c.kadType = KAD_TYPE_ALIVE ∧ c.expires = c'.expires) ∨
      ∃ c verified now, op = .gated c verified true now ∧ c.id = c'.id ∧
        ((World.new selfId).run ops).table.contains c.id = true ∧
        accepts ((World.new selfId).run ops).table ((World.new selfId).run ops).ipFilter c
          verified = true ∧
        c'.expires = some (now + ALIVE_LEASE_SECS) := by
  have h := guarded_run selfId ops
  generalize (World.new selfId).run ops = w at h
  refine ⟨fun c hc => ?_, fun ip => ?_, fun op c' hc' halive => ?_⟩
  · obtain ⟨p, hplaced, hcontact, hpass⟩ := h.placed c hc
    rw [hcontact] at hpass
    unfold addressPasses at hpass
    rw [Bool.and_eq_true, Bool.and_eq_true, Bool.not_eq_true', Bool.not_eq_true'] at hpass
    obtain ⟨⟨hpublic, hport⟩, hfree⟩ := hpass
    refine ⟨p, hplaced, hcontact, hpublic, fun hdns => ?_, fun f hf => ?_⟩
    · have hold : (decide ((wire c).udpPort = 53) && decide ((wire c).version ≤ 5)) = true :=
        Bool.and_eq_true_iff.mpr ⟨decide_eq_true hdns.1, decide_eq_true hdns.2⟩
      exact absurd (hold.symm.trans hport) (by decide)
    · rw [hf] at hfree
      exact hfree
  · rw [w.table.ipCounts_eq]
    exact h.sparse ip
  · rcases w.moves_step op with hmoves | ⟨c, verified, now, w₁, rfl, hknown, haccepts, hmoves, heq⟩
    · exact .inl (h.sameLeases_moves hmoves c' hc' halive)
    · rw [heq] at hc'
      rcases (h.moves hmoves).lease_apply (.setAlive c.id now) hc' halive with
        ⟨c₁, hc₁, hid₁, halive₁, hsame₁⟩ | ⟨now', hop, hexpires⟩
      · obtain ⟨c₀, hc₀, hid₀, halive₀, hsame₀⟩ := h.sameLeases_moves hmoves c₁ hc₁ halive₁
        exact .inl ⟨c₀, hc₀, hid₀.trans hid₁, halive₀, hsame₀.trans hsame₁⟩
      · obtain ⟨hid, hnow⟩ := RoutingOp.setAlive.inj hop
        exact .inr ⟨c, verified, now, rfl, hid, hknown, haccepts, hnow ▸ hexpires⟩

end World

end PadMule.Engine.KadGate
