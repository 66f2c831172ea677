import PadMule.Kad.ZoneShape

/-
  `mule-kad/src/routing.rs`: the routing table.

  A zone rooted at our own id, with the gates in front of an add: no contact is ourselves or
  speaks Kad1 only, and once the table can route, a /16 that is full takes nobody new.
  `routing_table_shape` is the representation invariant over all runs.
-/

namespace PadMule.Kad

open PadMule.Proto BinTrie

/-- A record of `nodes.dat`. -/
structure KadContact where
  id : Kad128
  ip : UInt32
  udpPort : UInt16
  tcpPort : UInt16
  version : UInt8
  udpKey : UInt32
  udpKeyIp : UInt32
  verified : Bool

/-- The arguments of `add`. -/
structure Sighting where
  id : Kad128
  ip : UInt32
  udpPort : UInt16
  tcpPort : UInt16
  version : UInt8
  verified : Bool

structure RoutingTable where
  selfId : Kad128
  root : Zone

namespace RoutingTable

def new (selfId : Kad128) : RoutingTable := ⟨selfId, Zone.emptyLeaf 0 0⟩

def contacts (t : RoutingTable) : List Contact := t.root.toList

def len (t : RoutingTable) : Nat := t.contacts.length

/-- Too small to route: the subnet caps are off. -/
def starved (t : RoutingTable) : Bool := t.len < DIVERSITY_STARVED_BELOW

/-- The id is held at this very address. -/
def holds (t : RoutingTable) (id : Kad128) (ip : UInt32) : Bool :=
  t.contacts.any fun c => c.id = id && c.ip = ip

/-- How many contacts are in the /16 of `ip`. -/
def inSlash16 (t : RoutingTable) (ip : UInt32) : Nat :=
  (t.contacts.filter fun c => net16 c.ip = net16 ip).length

def slash16Full (t : RoutingTable) (id : Kad128) (ip : UInt32) : Bool :=
  !t.holds id ip && !t.starved && diversityGoverned ip &&
    MAX_CONTACTS_PER_SLASH16 ≤ t.inSlash16 ip

/-- The contact a sighting makes. -/
def contact (t : RoutingTable) (s : Sighting) : Contact :=
  .new t.selfId s.id s.ip s.udpPort s.tcpPort s.version s.verified 0 0

def add (t : RoutingTable) (s : Sighting) : Bool × RoutingTable :=
  if s.id = t.selfId || s.version ≤ 1 then (false, t)
  else if t.slash16Full s.id s.ip then (false, t)
  else
    let r := t.root.add (t.contact s) t.starved
    (r.1, { t with root := r.2 })

def setAlive (t : RoutingTable) (id : Kad128) (now : UInt64) : Bool × RoutingTable :=
  let r := t.root.setAlive id now
  (r.1, { t with root := r.2 })

def remove (t : RoutingTable) (id : Kad128) : Bool × RoutingTable :=
  let r := t.root.remove id
  (r.1, { t with root := r.2 })

def sweep (t : RoutingTable) (now : UInt64) (maxProbes : Nat) : SweepOutcome × RoutingTable :=
  let r := t.root.sweep now maxProbes ⟨[], []⟩
  (r.2, { t with root := r.1 })

def noteVerifyKey (t : RoutingTable) (id : Kad128) (ip key keyIp : UInt32) : RoutingTable :=
  { t with root := (t.root.alter id fun c =>
      if c.ip = ip then { c with udpKey := key, udpKeyIp := keyIp } else c).2 }

def verifyContact (t : RoutingTable) (id : Kad128) (ip : UInt32) : Bool × RoutingTable :=
  ((t.contacts.find? fun c => c.id = id).any fun c => c.ip = ip,
    { t with root := (t.root.alter id fun c =>
        if c.ip = ip then { c with verified := true } else c).2 })

def loadNode (t : RoutingTable) (c : KadContact) : RoutingTable :=
  let t := (t.add ⟨c.id, c.ip, c.udpPort, c.tcpPort, c.version, c.verified⟩).2
  if c.udpKey ≠ 0 then t.noteVerifyKey c.id c.ip c.udpKey c.udpKeyIp else t

def loadNodes (t : RoutingTable) (contacts : List KadContact) : RoutingTable :=
  contacts.foldl loadNode t

end RoutingTable

inductive RoutingOp where
  | add (s : Sighting)
  | loadNodes (contacts : List KadContact)
  | setAlive (id : Kad128) (now : UInt64)
  | remove (id : Kad128)
  | sweep (now : UInt64) (maxProbes : Nat)
  | noteVerifyKey (id : Kad128) (ip key keyIp : UInt32)
  | verifyContact (id : Kad128) (ip : UInt32)

namespace RoutingTable

def apply (t : RoutingTable) : RoutingOp → RoutingTable
  | .add s => (t.add s).2
  | .loadNodes contacts => t.loadNodes contacts
  | .setAlive id now => (t.setAlive id now).2
  | .remove id => (t.remove id).2
  | .sweep now maxProbes => (t.sweep now maxProbes).2
  | .noteVerifyKey id ip key keyIp => t.noteVerifyKey id ip key keyIp
  | .verifyContact id ip => (t.verifyContact id ip).2

def run (t : RoutingTable) (ops : List RoutingOp) : RoutingTable := ops.foldl apply t

/-- The representation invariant. -/
structure WellFormed (t : RoutingTable) : Prop where
  ids : (t.contacts.map Contact.id).Nodup
  foreign : ∀ c ∈ t.contacts, c.id ≠ t.selfId ∧ 1 < c.version
  distance : ∀ c ∈ t.contacts, c.distance = t.selfId.distance c.id
  placed : ∀ c ∈ t.contacts, c ∈ t.root.leafAt c.distance.bit 0
  leaves : ∀ p z bin, t.root.sub p = some (.leaf z bin) → z.level = p.length ∧
    z.index = BitPath.bits p ∧ bin.length ≤ K ∧ ∀ c ∈ bin, Follows c.distance.bit p
  inner : ∀ p z zero one, t.root.sub p = some (.node z zero one) → z.level = p.length ∧
    z.index = BitPath.bits p ∧ z.level < MAXLEVELS ∧ (z.index < KK ∨ z.level < KBASE)

/-! ## What the operations do -/

variable {t t' : RoutingTable}

def Shaped (t : RoutingTable) : Prop := Zone.Ok t.selfId [] t.root

theorem shaped_new (selfId : Kad128) : (new selfId).Shaped where
  level_eq := rfl
  index_eq := rfl
  level_le := Nat.zero_le _
  length_le := Nat.zero_le _
  nodup := List.nodup_nil
  fits _ hc := absurd hc List.not_mem_nil
  follows _ hc := absurd hc List.not_mem_nil

theorem fits_contact (t : RoutingTable) {s : Sighting}
    (h : ¬(s.id = t.selfId || s.version ≤ 1) = true) : (t.contact s).Fits t.selfId := by
  simp only [Bool.or_eq_true, decide_eq_true_eq, not_or] at h
  exact ⟨h.1, UInt8.not_le.mp h.2, rfl⟩

/-- An add is refused at the gates, or is one of the zone. -/
theorem add_cases (t : RoutingTable) (s : Sighting) :
    ((s.id = t.selfId ∨ s.version ≤ 1 ∨ t.slash16Full s.id s.ip = true) ∧
        t.add s = (false, t)) ∨
      ((t.contact s).Fits t.selfId ∧ t.slash16Full s.id s.ip = false ∧
        t.add s = ((t.root.add (t.contact s) t.starved).1,
          { t with root := (t.root.add (t.contact s) t.starved).2 })) := by
  unfold add
  split_ifs with hgate hfull
  · rw [Bool.or_eq_true, decide_eq_true_eq, decide_eq_true_eq] at hgate
    exact .inl ⟨hgate.imp_right .inl, rfl⟩
  · exact .inl ⟨.inr (.inr hfull), rfl⟩
  · exact .inr ⟨t.fits_contact hgate, by simpa using hfull, rfl⟩

theorem Shaped.add (h : t.Shaped) (s : Sighting) : (t.add s).2.Shaped := by
  rcases t.add_cases s with ⟨-, heq⟩ | ⟨hfits, -, heq⟩
  · rw [heq]
    exact h
  · rw [heq]
    obtain ⟨n, -, hadds⟩ := Zone.adds_add (t.contact s) t.starved t.root
    exact hadds.ok h hfits (follows_nil _)

/-- Everything but an add shrinks bins. -/
theorem rel_noteVerifyKey (t : RoutingTable) (id : Kad128) (ip key keyIp : UInt32) :
    Rel Zone.Shrinks t.root (t.noteVerifyKey id ip key keyIp).root := by
  refine Zone.rel_alter id (fun c => ?_) t.root
  split_ifs <;> rfl

theorem rel_verifyContact (t : RoutingTable) (id : Kad128) (ip : UInt32) :
    Rel Zone.Shrinks t.root (t.verifyContact id ip).2.root := by
  refine Zone.rel_alter id (fun c => ?_) t.root
  split_ifs <;> rfl

/-- What adds and shrinking bins preserve, every operation does. -/
theorem apply_induct {P : RoutingTable → Prop} (hadd : ∀ t s, P t → P (t.add s).2)
    (hshrink : ∀ t root, P t → Rel Zone.Shrinks t.root root → P { t with root }) (h : P t)
    (op : RoutingOp) : P (t.apply op) := by
  have hnode (t : RoutingTable) (c : KadContact) (h : P t) : P (t.loadNode c) := by
    unfold loadNode
    dsimp only
    split_ifs
    · exact hshrink _ _ (hadd _ _ h) (rel_noteVerifyKey _ _ _ _ _)
    · exact hadd _ _ h
  cases op with
  | add s => exact hadd t s h
  | loadNodes contacts =>
    induction contacts generalizing t with
    | nil => exact h
    | cons c contacts ih => exact ih (hnode t c h)
  | setAlive id now => exact hshrink t _ h (Zone.rel_setAlive id now t.root)
  | remove id => exact hshrink t _ h (Zone.rel_remove id t.root)
  | sweep now maxProbes => exact hshrink t _ h (Zone.rel_sweep now maxProbes t.root _)
  | noteVerifyKey id ip key keyIp => exact hshrink t _ h (t.rel_noteVerifyKey id ip key keyIp)
  | verifyContact id ip => exact hshrink t _ h (t.rel_verifyContact id ip)

theorem run_induct {P : RoutingTable → Prop} (hadd : ∀ t s, P t → P (t.add s).2)
    (hshrink : ∀ t root, P t → Rel Zone.Shrinks t.root root → P { t with root }) (h : P t)
    (ops : List RoutingOp) : P (t.run ops) := by
  induction ops generalizing t with
  | nil => exact h
  | cons op ops ih => exact ih (apply_induct hadd hshrink h op)

theorem Shaped.run (h : t.Shaped) (ops : List RoutingOp) : (t.run ops).Shaped :=
  run_induct (P := Shaped) (fun _ s h => h.add s) (fun _ _ h hrel => Zone.Ok.shrinks h hrel) h ops

/-! ## The shape of the table -/

theorem Shaped.wellFormed (h : t.Shaped) : t.WellFormed where
  ids := by
    have hfits := Zone.Ok.fits h
    refine Placed.nodup_toList (Zone.Ok.placed h) (fun a ha b hb heq => ?_) ?_
    · exact Contact.bits_eq (hfits a ha) (hfits b hb) heq
    · exact h.imp (fun _ _ _ hbin => hbin.nodup) fun _ _ _ => trivial
  foreign c hc := ⟨(Zone.Ok.fits h c hc).foreign, (Zone.Ok.fits h c hc).version⟩
  distance c hc := (Zone.Ok.fits h c hc).distance_eq
  placed c hc := (Zone.Ok.placed h).mem_leafAt hc
  leaves p z bin hsub := by
    have hbin : Zone.BinOk t.selfId p z bin := h.sub hsub
    exact ⟨hbin.level_eq, hbin.index_eq, hbin.length_le, hbin.follows⟩
  inner p z zero one hsub := by
    have hnode : Zone.NodeOk p z := (h.sub hsub).1
    have hsplit := hnode.canSplit
    unfold ZoneTag.canSplit at hsplit
    rw [Bool.and_eq_true, Bool.or_eq_true, decide_eq_true_eq, decide_eq_true_eq,
      decide_eq_true_eq] at hsplit
    exact ⟨hnode.level_eq, hnode.index_eq, hsplit⟩


/-- Every run leads to a well-formed table, and an add to it ends: after 255 calls at most. -/
theorem routing_table_shape (selfId : Kad128) (ops : List RoutingOp) :
    ((new selfId).run ops).WellFormed ∧ ∀ c starved, ∃ n ≤ 2 * MAXLEVELS + 1,
      Zone.Adds c starved n ((new selfId).run ops).root
        (((new selfId).run ops).root.add c starved) := by
  have hshaped := (shaped_new selfId).run ops
  refine ⟨hshaped.wellFormed, fun c starved => ?_⟩
  obtain ⟨n, hn, hadds⟩ := Zone.adds_add c starved ((new selfId).run ops).root
  exact ⟨n, hn.trans (Zone.Ok.bound_le hshaped), hadds⟩

end RoutingTable

end PadMule.Kad
