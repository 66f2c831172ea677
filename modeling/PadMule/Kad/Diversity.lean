import PadMule.Kad.RoutingTable
import PadMule.Lib.Runs

/-
  `mule-kad/src/routing.rs`: what one subnet can hold of the table.

  The two caps are checked where a contact is admitted, the one on a bin only where it is new
  there: a contact that is known already moves to its new address past it (`CrowdedMove`). The
  cap on a /16 counts the whole table and sees such moves.
-/

namespace PadMule.Kad

open PadMule.Proto BinTrie

/-! ## Subnets -/

theorem shiftRight_net16 (ip : UInt32) : net16 ip >>> 16 = ip >>> 16 := by
  have hlt : ip.toNat >>> 16 < 2 ^ 16 := by
    have h := ip.toNat_lt
    rw [Nat.shiftRight_eq_div_pow]
    omega
  refine UInt32.toNat_inj.mp ?_
  rw [net16, UInt32.toNat_shiftRight, UInt32.toNat_shiftRight, UInt32.toNat_and]
  have hmask : (0xFFFF0000 : UInt32).toNat >>> 16 = 2 ^ 16 - 1 := rfl
  have hshift : (16 : UInt32).toNat % 32 = 16 := rfl
  rw [hshift, Nat.shiftRight_and_distrib, hmask, Nat.and_two_pow_sub_one_eq_mod,
    Nat.mod_eq_of_lt hlt]

theorem octets_congr {a b : UInt32} (h : net16 a = net16 b) : octets a = octets b := by
  have hshift : a >>> 16 = b >>> 16 := by rw [← shiftRight_net16, h, shiftRight_net16]
  have hfirst (ip : UInt32) : ip >>> 24 = (ip >>> 16) >>> 8 := by
    refine UInt32.toNat_inj.mp ?_
    simp only [UInt32.toNat_shiftRight]
    rw [← Nat.shiftRight_add]
    rfl
  unfold octets
  rw [hfirst a, hfirst b, hshift]

/-- The octets decide whether an address is public. -/
theorem diversityGoverned_eq (ip : UInt32) : diversityGoverned ip = routable false (octets ip) := by
  unfold diversityGoverned isAcceptableContactIp
  split_ifs with hzero
  · subst hzero
    decide
  · rfl

/-- A /16 is public as a whole. -/
theorem governed_congr {a b : UInt32} (h : net16 a = net16 b) :
    diversityGoverned a = diversityGoverned b := by
  rw [diversityGoverned_eq, diversityGoverned_eq, octets_congr h]

theorem net16_net24 (ip : UInt32) : net16 (net24 ip) = net16 ip := by
  unfold net16 net24
  rw [UInt32.and_assoc]
  rfl

theorem governed_of_net24 {a b : UInt32} (h : net24 a = net24 b) :
    diversityGoverned a = diversityGoverned b := by
  refine governed_congr ?_
  rw [← net16_net24 a, h, net16_net24]

/-! ## Counting -/

theorem sameSubnet_congr {a b : UInt32} (h : net24 a = net24 b) (bin : List Contact) :
    sameSubnet bin a = sameSubnet bin b := by
  unfold sameSubnet
  rw [h]

theorem sameSubnet_le {bin bin' : List Contact} (h : bin'.Sublist bin) (ip : UInt32) :
    sameSubnet bin' ip ≤ sameSubnet bin ip := (h.filter _).length_le

theorem sameSubnet_concat (bin : List Contact) (c : Contact) (ip : UInt32) :
    sameSubnet (bin ++ [c]) ip = sameSubnet bin ip + if net24 c.ip = net24 ip then 1 else 0 := by
  unfold sameSubnet
  rw [List.filter_append, List.length_append]
  split_ifs with h <;> simp [h]

theorem sameSubnet_middle (pre post : List Contact) (c : Contact) (ip : UInt32) :
    sameSubnet (pre ++ c :: post) ip =
      sameSubnet (pre ++ post) ip + if net24 c.ip = net24 ip then 1 else 0 := by
  unfold sameSubnet
  rw [List.filter_append, List.filter_append, List.length_append, List.length_append]
  by_cases h : net24 c.ip = net24 ip
  · rw [if_pos h, List.filter_cons_of_pos (by exact decide_eq_true h), List.length_cons,
      Nat.add_assoc]
  · rw [if_neg h, List.filter_cons_of_neg (by simpa using h), Nat.add_zero]

/-- A contact from another /24 adds nothing to a subnet. -/
theorem Zone.Landed.sameSubnet_le {c : Contact} {starved b : Bool} {bin bin' : List Contact}
    (h : Zone.Landed c starved bin b bin') {ip : UInt32} (hip : net24 c.ip ≠ net24 ip) :
    sameSubnet bin' ip ≤ sameSubnet bin ip := by
  cases h with
  | denied => exact le_rfl
  | @replaced pre post old hbin hid hdenies =>
    obtain ⟨-, hnew, -, -⟩ := c.replacing_fields old
    rw [hbin, sameSubnet_middle, sameSubnet_middle, hnew, if_neg hip]
    exact Nat.le_add_right _ _
  | refused hpart => exact Kad.sameSubnet_le hpart ip
  | pushed hpart =>
    rw [sameSubnet_concat, if_neg hip]
    exact Kad.sameSubnet_le hpart ip

namespace RoutingTable

variable {t : RoutingTable} {s : Sighting}

/-- The bin an id leads to. -/
def binOf (t : RoutingTable) (id : Kad128) : List Contact :=
  t.root.leafAt (t.selfId.distance id).bit 0

/-- A known contact would move, from another /24, into a bin where its new one has two. -/
structure CrowdedMove (t : RoutingTable) (s : Sighting) : Prop where
  version : 1 < s.version
  room : t.slash16Full s.id s.ip = false
  capped : subnetCapped (t.binOf s.id) s.ip = true
  moves : ∃ old ∈ t.contacts, old.id = s.id ∧ net24 old.ip ≠ net24 s.ip ∧
    old.denies (t.contact s) = false

instance (t : RoutingTable) (s : Sighting) : Decidable (t.CrowdedMove s) :=
  decidable_of_iff (1 < s.version ∧ t.slash16Full s.id s.ip = false ∧
      subnetCapped (t.binOf s.id) s.ip = true ∧
      ∃ old ∈ t.contacts, old.id = s.id ∧ net24 old.ip ≠ net24 s.ip ∧
        old.denies (t.contact s) = false)
    ⟨fun h => ⟨h.1, h.2.1, h.2.2.1, h.2.2.2⟩, fun h => ⟨h.version, h.room, h.capped, h.moves⟩⟩

/-- A contact the table knows is in the bin its id leads to. -/
theorem Shaped.mem_binOf (h : t.Shaped) {o : Contact} (ho : o ∈ t.contacts) :
    o ∈ t.binOf o.id := by
  have hmem := (Zone.Ok.placed h).mem_leafAt ho
  unfold Contact.bits at hmem
  rwa [(Zone.Ok.fits h o ho).distance_eq] at hmem

theorem Shaped.eq_of_id (h : t.Shaped) {o o' : Contact} (ho : o ∈ t.contacts)
    (ho' : o' ∈ t.contacts) (hid : o.id = o'.id) : o = o' :=
  List.inj_on_of_nodup_map h.wellFormed.ids ho ho' hid

theorem mem_contacts_of_mem_binOf {o : Contact} {id : Kad128} (h : o ∈ t.binOf id) :
    o ∈ t.contacts := mem_toList_of_mem_leafAt h

theorem Shaped.landed (h : t.Shaped) :
    Zone.Landed (t.contact s) t.starved (t.binOf s.id) (t.root.add (t.contact s) t.starved).1
      ((t.root.add (t.contact s) t.starved).2.leafAt (t.contact s).bits 0) := by
  obtain ⟨n, -, hadds⟩ := Zone.adds_add (t.contact s) t.starved t.root
  exact hadds.landed h

/-! ## One bin -/

/-- In a table that can route, the bin of a contact takes in no more than two of its /24 unless a
    known one moves in. -/
theorem Shaped.bin_bound_iff (h : t.Shaped) (harmed : t.starved = false)
    (hpublic : diversityGoverned s.ip = true) :
    sameSubnet ((t.add s).2.binOf s.id) s.ip ≤
        max MAX_SAME_SUBNET_PER_BIN (sameSubnet (t.binOf s.id) s.ip) ↔ ¬t.CrowdedMove s := by
  rcases t.add_cases s with ⟨hgate, heq⟩ | ⟨hfits, hroom, heq⟩
  · rw [heq]
    refine iff_of_true (Nat.le_max_right _ _) fun hmove => ?_
    rcases hgate with hself | hversion | hfull
    · obtain ⟨old, hold, hid, -⟩ := hmove.moves
      exact (h.wellFormed.foreign old hold).1 (hid.trans hself)
    · exact absurd hmove.version (UInt8.not_lt.mpr hversion)
    · exact absurd (hmove.room.symm.trans hfull) (by decide)
  · have hbin : (t.add s).2.binOf s.id =
        (t.root.add (t.contact s) t.starved).2.leafAt (t.contact s).bits 0 := by
      rw [heq]
      rfl
    have hlanded := h.landed (s := s)
    rw [← hbin, harmed] at hlanded
    have hunknown (hnew : ∀ o ∈ t.binOf s.id, o.id ≠ (t.contact s).id) : ¬t.CrowdedMove s := by
      intro hmove
      obtain ⟨old, hold, hid, -⟩ := hmove.moves
      exact hnew old (hid ▸ h.mem_binOf hold) hid
    generalize hb : (t.root.add (t.contact s) false).1 = b at hlanded
    generalize hbin' : (t.add s).2.binOf s.id = bin' at hlanded ⊢
    cases hlanded with
    | @denied old hold hid hdenies =>
      refine iff_of_true (Nat.le_max_right _ _) fun hmove => ?_
      obtain ⟨old', hold', hid', -, hfree⟩ := hmove.moves
      cases h.eq_of_id (mem_contacts_of_mem_binOf hold) hold' (hid.trans hid'.symm)
      exact absurd (hfree.symm.trans hdenies) (by decide)
    | @replaced pre post old hbins hid hdenies =>
      have hmem : old ∈ t.binOf s.id := by
        rw [hbins]
        simp
      have hold : old ∈ t.contacts := mem_contacts_of_mem_binOf hmem
      obtain ⟨-, hip, -, -⟩ := (t.contact s).replacing_fields old
      have hip : ((t.contact s).replacing old).ip = s.ip := hip
      have hcount := sameSubnet_middle pre post old s.ip
      have hcapped : subnetCapped (t.binOf s.id) s.ip = true ↔
          MAX_SAME_SUBNET_PER_BIN ≤ sameSubnet (t.binOf s.id) s.ip := by
        unfold subnetCapped
        rw [hpublic, Bool.true_and, decide_eq_true_eq]
      rw [← hbins] at hcount
      rw [sameSubnet_middle, hip, if_pos rfl]
      by_cases hnet : net24 old.ip = net24 s.ip
      · rw [if_pos hnet] at hcount
        refine iff_of_true (hcount ▸ Nat.le_max_right _ _) fun hmove => ?_
        obtain ⟨old', hold', hid', hnet', -⟩ := hmove.moves
        cases h.eq_of_id hold hold' (hid.trans hid'.symm)
        exact hnet' hnet
      · rw [if_neg hnet, Nat.add_zero] at hcount
        have hmove : t.CrowdedMove s ↔ MAX_SAME_SUBNET_PER_BIN ≤ sameSubnet (t.binOf s.id) s.ip :=
          ⟨fun hmove => hcapped.mp hmove.capped,
            fun hfull => ⟨hfits.version, hroom, hcapped.mpr hfull, old, hold, hid, hnet, hdenies⟩⟩
        rw [hmove, ← hcount]
        omega
    | refused hpart hnew =>
      exact iff_of_true ((sameSubnet_le hpart _).trans (Nat.le_max_right _ _)) (hunknown hnew)
    | @pushed part hpart hnew hcap =>
      refine iff_of_true (le_trans ?_ (Nat.le_max_left _ _)) (hunknown hnew)
      have hfree := hcap rfl
      have hip : (t.contact s).ip = s.ip := rfl
      unfold subnetCapped at hfree
      rw [hip, hpublic, Bool.true_and, decide_eq_false_iff_not, Nat.not_le] at hfree
      rw [sameSubnet_concat, hip, if_pos rfl]
      exact hfree

/-- What an add that is no crowded move does to any bin and any subnet. -/
theorem Shaped.any_bin (h : t.Shaped) (harmed : t.starved = false)
    (hquiet : diversityGoverned s.ip = true → ¬t.CrowdedMove s) (bits : Nat → Bool) {ip : UInt32}
    (hpublic : diversityGoverned ip = true) :
    sameSubnet ((t.add s).2.root.leafAt bits 0) ip ≤
      max MAX_SAME_SUBNET_PER_BIN (sameSubnet (t.root.leafAt bits 0) ip) := by
  rcases t.add_cases s with ⟨-, heq⟩ | ⟨-, -, heq⟩
  · rw [heq]
    exact Nat.le_max_right _ _
  · obtain ⟨n, -, hadds⟩ := Zone.adds_add (t.contact s) t.starved t.root
    have hroot : (t.add s).2.root = (t.root.add (t.contact s) t.starved).2 := by rw [heq]
    rcases hadds.elsewhere h bits with ⟨hsame, hsame'⟩ | hsub
    · have hself : (t.add s).2.root.leafAt bits 0 = (t.add s).2.binOf s.id := by
        rw [hroot]
        refine hsame'.trans ?_
        rw [heq]
        rfl
      have hbefore : t.root.leafAt bits 0 = t.binOf s.id := hsame
      rw [hself, hbefore]
      by_cases hnet : net24 s.ip = net24 ip
      · rw [← sameSubnet_congr hnet, ← sameSubnet_congr hnet]
        have hgoverned := (governed_of_net24 hnet).trans hpublic
        exact (h.bin_bound_iff harmed hgoverned).mpr (hquiet hgoverned)
      · refine le_trans ?_ (Nat.le_max_right _ _)
        have hlanded := h.landed (s := s)
        have hbin : (t.add s).2.binOf s.id =
            (t.root.add (t.contact s) t.starved).2.leafAt (t.contact s).bits 0 := by
          rw [heq]
          rfl
        rw [hbin]
        exact hlanded.sameSubnet_le hnet
    · rw [hroot]
      exact (sameSubnet_le hsub ip).trans (Nat.le_max_right _ _)

/-! ## Contacts in all -/

theorem Shaped.took (h : t.Shaped) (hfits : (t.contact s).Fits t.selfId) :
    Zone.Took (t.contact s) t.contacts (t.root.add (t.contact s) t.starved).1
      (t.root.add (t.contact s) t.starved).2.toList := by
  obtain ⟨n, -, hadds⟩ := Zone.adds_add (t.contact s) t.starved t.root
  exact hadds.took h hfits

/-- How many contacts have an ip of a kind. -/
def countIps (t : RoutingTable) (kind : UInt32 → Bool) : Nat :=
  (t.contacts.map Contact.ip).countP kind

/-- A contact that is held at another ip is not held at this one. -/
theorem Shaped.not_holds (h : t.Shaped) {old : Contact} (hold : old ∈ t.contacts)
    (hid : old.id = s.id) (hmoved : old.ip ≠ s.ip) : t.holds s.id s.ip = false := by
  unfold holds
  rw [List.any_eq_false]
  intro o ho hheld
  rw [Bool.and_eq_true, decide_eq_true_eq, decide_eq_true_eq] at hheld
  cases h.eq_of_id ho hold (hheld.1.trans hid.symm)
  exact hmoved hheld.2

/-- An add brings at most one ip, and none where the contact is held at this very ip or its /16 is
    full. -/
theorem Shaped.countIps_add (h : t.Shaped) (s : Sighting) (kind : UInt32 → Bool) :
    (t.add s).2.countIps kind ≤ t.countIps kind ∨
      (kind s.ip = true ∧ t.slash16Full s.id s.ip = false ∧ t.holds s.id s.ip = false ∧
        (t.add s).2.countIps kind ≤ t.countIps kind + 1) := by
  rcases t.add_cases s with ⟨-, heq⟩ | ⟨hfits, hfull, heq⟩
  · rw [heq]
    exact .inl le_rfl
  · have htook := h.took hfits
    have hip' : (t.contact s).ip = s.ip := rfl
    rw [heq]
    unfold countIps contacts at *
    dsimp only
    generalize (t.root.add (t.contact s) t.starved).1 = b at htook
    cases htook with
    | refused hperm => exact .inl ((hperm.map Contact.ip).countP_eq kind).le
    | @replaced old rest _ hall hid hperm =>
      obtain ⟨-, hip, -, -⟩ := (t.contact s).replacing_fields old
      have hold : old ∈ t.contacts := hall.symm.subset (List.mem_cons_self ..)
      rw [(hall.map Contact.ip).countP_eq, (hperm.map Contact.ip).countP_eq, List.map_cons,
        List.map_cons, List.countP_cons, List.countP_cons, hip, hip']
      by_cases hsame : old.ip = s.ip
      · exact .inl (hsame ▸ le_rfl)
      · by_cases hkind : kind s.ip = true
        · refine .inr ⟨hkind, hfull, h.not_holds hold hid hsame, ?_⟩
          rw [if_pos hkind]
          omega
        · refine .inl ?_
          rw [if_neg hkind]
          omega
    | inserted hnew hperm =>
      have hunheld : t.holds s.id s.ip = false := by
        unfold holds
        rw [List.any_eq_false]
        intro o ho hheld
        rw [Bool.and_eq_true, decide_eq_true_eq] at hheld
        exact hnew o ho hheld.1
      rw [(hperm.map Contact.ip).countP_eq, List.map_cons, List.countP_cons, hip']
      by_cases hkind : kind s.ip = true
      · refine .inr ⟨hkind, hfull, hunheld, ?_⟩
        rw [if_pos hkind]
      · refine .inl ?_
        rw [if_neg hkind]
        exact le_rfl

/-- Everything but an add brings no ip. -/
theorem countIps_shrinks {root : Zone} (hrel : Rel Zone.Shrinks t.root root)
    (kind : UInt32 → Bool) : ({ t with root } : RoutingTable).countIps kind ≤ t.countIps kind := by
  obtain ⟨cores, hperm, hsub⟩ := hrel.subperm
  have hips (all : List Contact) :
      all.map Contact.ip = (all.map Contact.core).map fun core => core.2.1 := by
    rw [List.map_map]
    rfl
  unfold countIps
  rw [hips, hips]
  exact ((hperm.map _).countP_eq kind).symm.le.trans (hsub.map _).countP_le

/-- An add loses nobody. -/
theorem Shaped.len_le_add (h : t.Shaped) (s : Sighting) : t.len ≤ (t.add s).2.len := by
  rcases t.add_cases s with ⟨-, heq⟩ | ⟨hfits, -, heq⟩
  · rw [heq]
  · rw [heq]
    have htook := h.took hfits
    show t.contacts.length ≤ (t.root.add (t.contact s) t.starved).2.toList.length
    generalize (t.root.add (t.contact s) t.starved).1 = b at htook
    cases htook with
    | refused hperm => exact hperm.length_eq.ge
    | replaced hall hid hperm =>
      rw [hall.length_eq, hperm.length_eq, List.length_cons, List.length_cons]
    | inserted hnew hperm =>
      rw [hperm.length_eq, List.length_cons]
      exact Nat.le_succ _

theorem Shaped.armed_add (h : t.Shaped) (harmed : t.starved = false) (s : Sighting) :
    (t.add s).2.starved = false := by
  unfold starved at *
  rw [decide_eq_false_iff_not, Nat.not_lt] at *
  exact harmed.trans (h.len_le_add s)

/-! ## The bound on a bin -/

def addStep (t : RoutingTable) (s : Sighting) : Option RoutingTable := some (t.add s).2

/-- In every table that can route, an add keeps the share of a public /24 in the contact's bin to
    two, or to what it was, exactly when it is no crowded move; and where no add is one, no bin
    ever gets more of any public /24. -/
theorem bin_subnet_bound (selfId : Kad128) (ops : List RoutingOp)
    (harmed : ((new selfId).run ops).starved = false) :
    (∀ s, diversityGoverned s.ip = true →
      (sameSubnet ((((new selfId).run ops).add s).2.binOf s.id) s.ip ≤
          max MAX_SAME_SUBNET_PER_BIN (sameSubnet (((new selfId).run ops).binOf s.id) s.ip) ↔
        ¬((new selfId).run ops).CrowdedMove s)) ∧
      ∀ sightings, Runs.Throughout addStep
          (fun t s => diversityGoverned s.ip = true → ¬t.CrowdedMove s)
          ((new selfId).run ops) sightings →
        Runs.Always addStep (fun t => ∀ bits ip, diversityGoverned ip = true →
            sameSubnet (t.root.leafAt bits 0) ip ≤ max MAX_SAME_SUBNET_PER_BIN
              (sameSubnet (((new selfId).run ops).root.leafAt bits 0) ip))
          ((new selfId).run ops) sightings := by
  have hshaped := (shaped_new selfId).run ops
  generalize (new selfId).run ops = start at harmed hshaped ⊢
  refine ⟨fun s hpublic => hshaped.bin_bound_iff harmed hpublic, fun sightings hquiet => ?_⟩
  have hstart : start.Shaped ∧ start.starved = false ∧ ∀ bits ip, diversityGoverned ip = true →
      sameSubnet (start.root.leafAt bits 0) ip ≤
        max MAX_SAME_SUBNET_PER_BIN (sameSubnet (start.root.leafAt bits 0) ip) :=
    ⟨hshaped, harmed, fun _ _ _ => Nat.le_max_right _ _⟩
  let inv : RoutingTable → Prop := fun t => t.Shaped ∧ t.starved = false ∧
    ∀ bits ip, diversityGoverned ip = true → sameSubnet (t.root.leafAt bits 0) ip ≤
      max MAX_SAME_SUBNET_PER_BIN (sameSubnet (start.root.leafAt bits 0) ip)
  have hkeep : ∀ t s t', inv t → (diversityGoverned s.ip = true → ¬t.CrowdedMove s) →
      addStep t s = some t' → inv t' := by
    intro t s t' ⟨hshape, htable, hbins⟩ hok hstep
    cases hstep
    refine ⟨hshape.add s, hshape.armed_add htable s, fun bits ip hpublic => ?_⟩
    have hone := hshape.any_bin htable hok bits hpublic
    exact hone.trans (max_le (Nat.le_max_left _ _) (hbins bits ip hpublic))
  exact Runs.always_of_throughout hkeep (fun t hinv => hinv.2.2) hstart hquiet

/-- Ten contacts in ten /24s, near to ourselves. -/
def armedOps : List RoutingOp :=
  (List.range 10).map fun i =>
    .add ⟨⟨.ofNat ((i + 1) * 2 ^ 16), 0, 0, 0⟩, .ofNat (0xC6330001 + i * 256), 4672, 4662, 8, true⟩

/-- A contact far from ourselves, seen at an address. -/
def farSighting (n ip : UInt32) : Sighting := ⟨⟨0xF0000000, 0, 0, n⟩, ip, 4672, 4662, 8, true⟩

/-- The bin of the far contacts holds two of one /24, and one of another. -/
def floodOps : List RoutingOp :=
  armedOps ++ [.add (farSighting 1 0xCB007101), .add (farSighting 2 0xCB007102),
    .add (farSighting 3 0xCB007203)]

/-- A new contact of the /24 is turned away: it still has two of the bin. -/
theorem flood_capped :
    ((new ⟨0, 0, 0, 0⟩).run floodOps).starved = false ∧
      sameSubnet ((((new ⟨0, 0, 0, 0⟩).run floodOps).add (farSighting 4 0xCB007104)).2.binOf
        ⟨0xF0000000, 0, 0, 4⟩) 0xCB007104 ≤ 2 := by
  have harmed : ((new ⟨0, 0, 0, 0⟩).run floodOps).starved = false := by decide +kernel
  have hbound := ((bin_subnet_bound ⟨0, 0, 0, 0⟩ floodOps harmed).1 (farSighting 4 0xCB007104)
    (by decide)).mpr (by decide +kernel)
  exact ⟨harmed, hbound.trans (by decide +kernel)⟩

/-- The contact of the other /24 shows up at a third address of the first one, and is moved. -/
theorem known_contact_moves_in :
    ((new ⟨0, 0, 0, 0⟩).run floodOps).starved = false ∧
      diversityGoverned (farSighting 3 0xCB007103).ip = true ∧
      ¬sameSubnet ((((new ⟨0, 0, 0, 0⟩).run floodOps).add (farSighting 3 0xCB007103)).2.binOf
          (farSighting 3 0xCB007103).id) (farSighting 3 0xCB007103).ip ≤
        max MAX_SAME_SUBNET_PER_BIN (sameSubnet (((new ⟨0, 0, 0, 0⟩).run floodOps).binOf
          (farSighting 3 0xCB007103).id) (farSighting 3 0xCB007103).ip) := by
  decide +kernel

/-! ## The bound on a /16 -/

theorem inSlash16_eq (t : RoutingTable) (ip : UInt32) :
    t.inSlash16 ip = t.countIps (net16 · = net16 ip) := by
  unfold inSlash16 countIps
  rw [List.countP_map, List.countP_eq_length_filter]
  rfl

/-- No public /16 has more than its share. -/
def SlashBounded (t : RoutingTable) : Prop :=
  ∀ ip, diversityGoverned ip = true → t.inSlash16 ip ≤ MAX_CONTACTS_PER_SLASH16

theorem inSlash16_le_len (t : RoutingTable) (ip : UInt32) : t.inSlash16 ip ≤ t.len :=
  List.length_filter_le _ _

/-- A contact that is not held at this address finds room in its /16. -/
theorem room_of_not_full {ip : UInt32} (hfull : t.slash16Full s.id s.ip = false)
    (hnew : t.holds s.id s.ip = false) (hip : net16 s.ip = net16 ip)
    (hpublic : diversityGoverned ip = true) : t.inSlash16 ip < MAX_CONTACTS_PER_SLASH16 := by
  unfold slash16Full at hfull
  have hcount : t.inSlash16 s.ip = t.inSlash16 ip := by
    unfold inSlash16
    rw [hip]
  rw [hnew, governed_congr hip, hpublic, hcount, Bool.not_false, Bool.true_and, Bool.and_true,
    Bool.and_eq_false_iff, Bool.not_eq_false', decide_eq_false_iff_not, Nat.not_le] at hfull
  rcases hfull with hstarved | hroom
  · have hlen : t.len < DIVERSITY_STARVED_BELOW := of_decide_eq_true hstarved
    exact (t.inSlash16_le_len ip).trans_lt (hlen.trans (by decide))
  · exact hroom

theorem SlashBounded.add (h : t.Shaped) (hbound : t.SlashBounded) (s : Sighting) :
    (t.add s).2.SlashBounded := by
  intro ip hpublic
  have hone := hbound ip hpublic
  rw [inSlash16_eq] at hone ⊢
  rcases h.countIps_add s (net16 · = net16 ip) with hle | ⟨hin, hfull, hnew, hle⟩
  · exact hle.trans hone
  · have hroom := room_of_not_full hfull hnew (of_decide_eq_true hin) hpublic
    rw [inSlash16_eq] at hroom
    exact hle.trans hroom

theorem SlashBounded.shrinks (hbound : t.SlashBounded) {root : Zone}
    (hrel : Rel Zone.Shrinks t.root root) : ({ t with root } : RoutingTable).SlashBounded := by
  intro ip hpublic
  have hone := hbound ip hpublic
  rw [inSlash16_eq] at hone ⊢
  exact (countIps_shrinks hrel _).trans hone

/-- No public /16 ever has more than its share of the table, and a contact seen again where it is
    held is always let in, unless it speaks Kad1 now or a keyless packet gives another port for one
    we hold a key for. -/
theorem slash16_bound (selfId : Kad128) (ops : List RoutingOp) :
    (∀ ip, diversityGoverned ip = true →
      ((new selfId).run ops).inSlash16 ip ≤ MAX_CONTACTS_PER_SLASH16) ∧
    ∀ s, ((new selfId).run ops).holds s.id s.ip = true →
      ((new selfId).run ops).slash16Full s.id s.ip = false ∧
      ((((new selfId).run ops).add s).1 = true ↔ 1 < s.version ∧
        ∀ old ∈ ((new selfId).run ops).contacts, old.id = s.id →
          old.denies (((new selfId).run ops).contact s) = false) := by
  have hboth : ((new selfId).run ops).Shaped ∧ ((new selfId).run ops).SlashBounded := by
    refine run_induct (P := fun t => t.Shaped ∧ t.SlashBounded)
      (fun t s h => ⟨h.1.add s, h.2.add h.1 s⟩)
      (fun t root h hrel => ⟨Zone.Ok.shrinks h.1 hrel, h.2.shrinks hrel⟩)
      ⟨shaped_new selfId, fun ip _ => Nat.zero_le _⟩ ops
  obtain ⟨hshaped, hbound⟩ := hboth
  refine ⟨hbound, fun s hheld => ?_⟩
  generalize (new selfId).run ops = t at *
  have hfull : t.slash16Full s.id s.ip = false := by
    unfold slash16Full
    rw [hheld]
    rfl
  obtain ⟨o, ho, hheld⟩ := List.any_eq_true.mp hheld
  rw [Bool.and_eq_true, decide_eq_true_eq] at hheld
  have hknown : o ∈ t.binOf s.id := hheld.1 ▸ hshaped.mem_binOf ho
  refine ⟨hfull, ?_⟩
  rcases t.add_cases s with ⟨hgate, heq⟩ | ⟨hfits, -, heq⟩
  · rw [heq]
    refine iff_of_false (by simp) fun hopen => ?_
    obtain ⟨hversion, -⟩ := hopen
    rcases hgate with hself | hold | hfull'
    · exact (hshaped.wellFormed.foreign o ho).1 (hheld.1.trans hself)
    · exact absurd hversion (UInt8.not_lt.mpr hold)
    · exact absurd (hfull.symm.trans hfull') (by decide)
  · rw [heq]
    have hlanded := hshaped.landed (s := s)
    generalize (t.root.add (t.contact s) t.starved).2.leafAt (t.contact s).bits 0 = bin' at hlanded
    dsimp only
    generalize (t.root.add (t.contact s) t.starved).1 = b at hlanded ⊢
    cases hlanded with
    | @denied old hold hid hdenies =>
      refine iff_of_false (by simp) fun hopen => ?_
      obtain ⟨-, hfree⟩ := hopen
      have hnot := hfree old (mem_contacts_of_mem_binOf hold) hid
      exact absurd (hnot.symm.trans hdenies) (by decide)
    | @replaced pre post old hbins hid hdenies =>
      refine iff_of_true rfl ⟨hfits.version, fun o' ho' hid' => ?_⟩
      have hmem : old ∈ t.binOf s.id := by
        rw [hbins]
        simp
      cases hshaped.eq_of_id (mem_contacts_of_mem_binOf hmem) ho' (hid.trans hid'.symm)
      exact hdenies
    | refused hpart hnew => exact absurd hheld.1 (hnew o hknown)
    | pushed hpart hnew => exact absurd hheld.1 (hnew o hknown)

end RoutingTable

end PadMule.Kad
