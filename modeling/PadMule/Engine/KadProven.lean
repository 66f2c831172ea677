import PadMule.Engine.KadGate
import PadMule.Kad.Hearsay

/-
  `mule-engine/src/kad_live.rs`: where the standing of a contact in the live table comes from.

  A contact is handed to another node when it is verified and alive. Both belong to an id at an
  address: moved to another one a contact starts afresh. So each goes back to a step of the run that
  named the id at that very address, and hearsay is no such step.
-/

namespace PadMule.Engine.KadGate

open PadMule.Proto PadMule.Kad BinTrie

/-! ## Being alive -/

/-- The id is held at the address, and answered from there. -/
def Alive (t : RoutingTable) (id : Kad128) (ip : UInt32) : Prop :=
  ∃ o ∈ t.contacts, o.id = id ∧ o.ip = ip ∧ o.kadType ≤ KAD_TYPE_ALIVE

variable {t : RoutingTable} {id : Kad128} {ip : UInt32}

/-- An add makes nobody alive: on the same address it carries the type over, elsewhere the contact
    is new. -/
theorem alive_add (h : t.Shaped) {s : Sighting} (halive : Alive (t.add s).2 id ip) :
    Alive t id ip := by
  have hnew : ¬(t.contact s).kadType ≤ KAD_TYPE_ALIVE := show ¬(3 : UInt8) ≤ 2 by decide
  obtain ⟨c, hc, rfl, rfl, htype⟩ := halive
  rcases h.mem_add hc with ⟨hold, -⟩ | ⟨-, old, hold, hid, -, rfl⟩ | ⟨-, -, rfl⟩
  · exact ⟨c, hold, rfl, rfl, htype⟩
  · obtain ⟨hid', hip', -, -⟩ := (t.contact s).replacing_fields old
    by_cases hip : old.ip = s.ip
    · rw [(Contact.replacing_age hip).1] at htype
      exact ⟨old, hold, hid.trans hid'.symm, hip.trans hip'.symm, htype⟩
    · rw [Contact.replacing_of_ne hip] at htype
      exact absurd htype hnew
  · exact absurd htype hnew

/-- Touching up a contact without its type makes nobody alive. -/
theorem alive_touched (h : t.Shaped) {f : Contact → Contact} {root : Zone} {b : Bool} {i : Kad128}
    (htouched : Zone.Touched i f t.contacts root.toList b)
    (hf : ∀ c, (f c).id = c.id ∧ (f c).ip = c.ip ∧ (f c).kadType = c.kadType)
    (halive : Alive { t with root } id ip) : Alive t id ip := by
  obtain ⟨c, hc, rfl, rfl, htype⟩ := halive
  rcases htouched.mem h.wellFormed.ids hc with ⟨hold, -⟩ | ⟨old, hold, -, rfl⟩
  · exact ⟨c, hold, rfl, rfl, htype⟩
  · obtain ⟨hid, hip, hsame⟩ := hf old
    exact ⟨old, hold, hid.symm, hip.symm, hsame ▸ htype⟩

/-- A probe takes a contact further away from being alive. -/
theorem alive_of_bumped {kadType : UInt8} (h : Zone.bumped kadType ≤ KAD_TYPE_ALIVE) :
    kadType ≤ KAD_TYPE_ALIVE := by
  have hall : ∀ n < 256, Zone.bumped (UInt8.ofNat n) ≤ KAD_TYPE_ALIVE →
      UInt8.ofNat n ≤ KAD_TYPE_ALIVE := by decide +kernel
  have hn := hall kadType.toNat kadType.toNat_lt
  rw [UInt8.ofNat_toNat] at hn
  exact hn h

theorem alive_apply (h : t.Shaped) (op : RoutingOp) (hquiet : Quiet op)
    (halive : Alive (t.apply op) id ip) : Alive t id ip := by
  cases op with
  | add | loadNodes | setAlive => exact hquiet.elim
  | remove i =>
    obtain ⟨c, hc, hid, hip, htype⟩ := halive
    have hkept : c ∈ (Zone.remove i t.root).2.toList := hc
    rw [Zone.toList_remove i h.wellFormed.ids] at hkept
    exact ⟨c, (List.mem_filter.mp hkept).1, hid, hip, htype⟩
  | sweep now maxProbes =>
    obtain ⟨c, hc, rfl, rfl, htype⟩ := halive
    obtain ⟨o, ho, -, hcases⟩ := (t.swept now maxProbes).kept c hc
    have hsame : (o.aged now).id = o.id ∧ (o.aged now).ip = o.ip ∧
        (o.aged now).kadType = o.kadType := by
      unfold Contact.aged
      split_ifs <;> exact ⟨rfl, rfl, rfl⟩
    refine ⟨o, ho, ?_⟩
    rcases hcases with rfl | ⟨-, rfl, -⟩
    · exact ⟨hsame.1.symm, hsame.2.1.symm, hsame.2.2 ▸ htype⟩
    · exact ⟨hsame.1.symm, hsame.2.1.symm, hsame.2.2 ▸ alive_of_bumped htype⟩
  | noteVerifyKey i a key keyIp =>
    exact alive_touched h (Zone.touched_alter i _ t.root)
      (fun c => by split_ifs <;> exact ⟨rfl, rfl, rfl⟩) halive
  | verifyContact i a =>
    exact alive_touched h (Zone.touched_alter i _ t.root)
      (fun c => by split_ifs <;> exact ⟨rfl, rfl, rfl⟩) halive

/-- Only the contact that is set alive becomes so, at the address it is held at. -/
theorem alive_setAlive (h : t.Shaped) {i : Kad128} {now : UInt64}
    (halive : Alive (t.setAlive i now).2 id ip) :
    Alive t id ip ∨ (i = id ∧ ∃ o ∈ t.contacts, o.id = id ∧ o.ip = ip) := by
  obtain ⟨c, hc, rfl, rfl, htype⟩ := halive
  rcases (Zone.touched_setAlive i now t.root).mem h.wellFormed.ids hc with
    ⟨hold, -⟩ | ⟨old, hold, hid, rfl⟩
  · exact .inl ⟨c, hold, rfl, rfl, htype⟩
  · exact .inr ⟨hid.symm, old, hold, rfl, rfl⟩

/-! ## A gated call -/

/-- A gated call is refused, or is an add, or one that is accepted and a lease for it. -/
inductive Gated (t : RoutingTable) (ipFilter : Option IpFilter) (c : WireContact)
    (verified provenAlive : Bool) (now : UInt64) : RoutingTable → Prop where
  | refused : Gated t ipFilter c verified provenAlive now t
  | added : Gated t ipFilter c verified provenAlive now (t.add (sighting c verified)).2
  | leased (hproven : provenAlive = true) (haccepted : (t.add (sighting c verified)).1 = true) :
      Gated t ipFilter c verified provenAlive now
        ((t.add (sighting c verified)).2.setAlive c.id now).2

theorem gated_gatedAddContact (t : RoutingTable) (ipFilter : Option IpFilter) (c : WireContact)
    (verified provenAlive : Bool) (now : UInt64) :
    Gated t ipFilter c verified provenAlive now
      (gatedAddContact t ipFilter c verified provenAlive now) := by
  unfold gatedAddContact
  dsimp only
  split_ifs with hpass hroom hlease
  · exact .refused
  · exact .refused
  · rw [Bool.and_eq_true, Bool.and_eq_true] at hlease
    exact .leased hlease.1.1 hlease.2
  · exact .added

/-- A contact that was let in is held where it was seen. -/
theorem ip_of_accepted (h : t.Shaped) {s : Sighting} (hadd : (t.add s).1 = true) {c : Contact}
    (hc : c ∈ (t.add s).2.contacts) (hid : c.id = s.id) : c.ip = s.ip := by
  rcases h.mem_add hc with ⟨-, hrefused⟩ | ⟨-, old, -, -, -, rfl⟩ | ⟨-, -, rfl⟩
  · exact absurd (hadd.symm.trans (hrefused hid)) (by decide)
  · exact ((t.contact s).replacing_fields old).2.1
  · rfl

variable {ipFilter : Option IpFilter} {c : WireContact} {verified provenAlive : Bool}
  {now : UInt64}

theorem Gated.shaped {t' : RoutingTable} (h : t.Shaped)
    (hgated : Gated t ipFilter c verified provenAlive now t') : t'.Shaped := by
  cases hgated with
  | refused => exact h
  | added => exact h.add _
  | leased => exact (h.add _).run [.setAlive c.id now]

theorem Gated.proven {t' : RoutingTable} (h : t.Shaped)
    (hgated : Gated t ipFilter c verified provenAlive now t') (hproven : t'.Proven id ip) :
    t.Proven id ip ∨ (c.id = id ∧ c.ip = ip ∧ verified = true) := by
  cases hgated with
  | refused => exact .inl hproven
  | added => exact h.proven_add hproven
  | leased =>
    rcases (h.add (sighting c verified)).proven_apply (.setAlive c.id now) hproven with
      hbefore | hvouches
    · exact h.proven_add hbefore
    · exact hvouches.elim

theorem Gated.alive {t' : RoutingTable} (h : t.Shaped)
    (hgated : Gated t ipFilter c verified provenAlive now t') (halive : Alive t' id ip) :
    Alive t id ip ∨ (c.id = id ∧ c.ip = ip ∧ provenAlive = true) := by
  cases hgated with
  | refused => exact .inl halive
  | added => exact .inl (alive_add h halive)
  | leased hyes haccepted =>
    rcases alive_setAlive (h.add (sighting c verified)) halive with
      hbefore | ⟨hid, o, ho, hid', hip⟩
    · exact .inl (alive_add h hbefore)
    · refine .inr ⟨hid, ?_, hyes⟩
      exact (ip_of_accepted h haccepted ho (hid'.trans hid.symm)).symm.trans hip

/-! ## Runs of the live table -/

/-- The steps that name an id as verified at an ip. -/
def LiveOp.Vouches (id : Kad128) (ip : UInt32) : LiveOp → Prop
  | .gated c verified _ _ => c.id = id ∧ c.ip = ip ∧ verified = true
  | .seed contacts _ => ∃ c ∈ contacts, c.id = id ∧ c.ip = ip ∧ c.verified = true
  | .verifyContact id' ip' => id' = id ∧ ip' = ip
  | _ => False

/-- The steps that prove an id alive at an ip. -/
def LiveOp.Enlivens (id : Kad128) (ip : UInt32) : LiveOp → Prop
  | .gated c _ provenAlive _ => c.id = id ∧ c.ip = ip ∧ provenAlive = true
  | _ => False

namespace World

/-- A record of a seed list vouches for itself if it is verified, and makes nobody alive. -/
theorem standing_seedOne (now : UInt64) (c : KadContact) {w : World} (h : w.table.Shaped)
    (id : Kad128) (ip : UInt32) :
    (w.seedOne now c).table.Shaped ∧
    ((w.seedOne now c).table.Proven id ip →
      w.table.Proven id ip ∨ (c.id = id ∧ c.ip = ip ∧ c.verified = true)) ∧
    (Alive (w.seedOne now c).table id ip → Alive w.table id ip) := by
  have hgated : Gated w.table w.ipFilter ⟨c.id, c.ip, c.udpPort, c.tcpPort, c.version⟩ c.verified
      false now (w.gated ⟨c.id, c.ip, c.udpPort, c.tcpPort, c.version⟩ c.verified false now).table :=
    gated_gatedAddContact ..
  unfold seedOne
  generalize w.gated ⟨c.id, c.ip, c.udpPort, c.tcpPort, c.version⟩ c.verified false now = w₁
    at hgated ⊢
  have hshaped := hgated.shaped h
  have halive (halive : Alive w₁.table id ip) : Alive w.table id ip :=
    (hgated.alive h halive).resolve_right fun hno => absurd hno.2.2 (by decide)
  dsimp only
  split_ifs
  · refine ⟨hshaped.run [.noteVerifyKey c.id c.ip c.udpKey c.udpKeyIp], fun hproven => ?_,
      fun hnow => halive ?_⟩
    · exact hgated.proven h (hshaped.proven_noteVerifyKey hproven)
    · exact alive_apply hshaped (.noteVerifyKey c.id c.ip c.udpKey c.udpKeyIp) trivial hnow
  · exact ⟨hshaped, hgated.proven h, halive⟩

theorem standing_seed (now : UInt64) (contacts : List KadContact) {w : World}
    (h : w.table.Shaped) (id : Kad128) (ip : UInt32) :
    (contacts.foldl (seedOne now) w).table.Shaped ∧
    ((contacts.foldl (seedOne now) w).table.Proven id ip → w.table.Proven id ip ∨
      ∃ c ∈ contacts, c.id = id ∧ c.ip = ip ∧ c.verified = true) ∧
    (Alive (contacts.foldl (seedOne now) w).table id ip → Alive w.table id ip) := by
  induction contacts generalizing w with
  | nil => exact ⟨h, .inl, fun halive => halive⟩
  | cons c contacts ih =>
    obtain ⟨hshaped, hproven, halive⟩ := standing_seedOne now c h id ip
    obtain ⟨hshaped', hproven', halive'⟩ := ih hshaped
    refine ⟨hshaped', fun hnow => ?_, fun hnow => halive (halive' hnow)⟩
    rcases hproven' hnow with hbefore | ⟨r, hr, hvouches⟩
    · exact (hproven hbefore).imp_right fun hvouches => ⟨c, List.mem_cons_self .., hvouches⟩
    · exact .inr ⟨r, List.mem_cons_of_mem _ hr, hvouches⟩

variable {w : World} {op : LiveOp}

theorem shaped_step (h : w.table.Shaped) (op : LiveOp) : (w.step op).table.Shaped := by
  cases op with
  | gated c verified provenAlive now => exact (gated_gatedAddContact ..).shaped h
  | setIpFilter ipFilter => exact h
  | seed contacts now => exact (standing_seed now contacts h w.table.selfId 0).1
  | sweep now maxProbes => exact h.run [.sweep now maxProbes]
  | remove i => exact h.run [.remove i]
  | noteVerifyKey i a key keyIp => exact h.run [.noteVerifyKey i a key keyIp]
  | verifyContact i a => exact h.run [.verifyContact i a]

theorem proven_step (h : w.table.Shaped) (hproven : (w.step op).table.Proven id ip) :
    w.table.Proven id ip ∨ op.Vouches id ip := by
  cases op with
  | gated c verified provenAlive now => exact (gated_gatedAddContact ..).proven h hproven
  | setIpFilter ipFilter => exact .inl hproven
  | seed contacts now => exact (standing_seed now contacts h id ip).2.1 hproven
  | sweep now maxProbes => exact h.proven_apply (.sweep now maxProbes) hproven
  | remove i => exact h.proven_apply (.remove i) hproven
  | noteVerifyKey i a key keyIp => exact h.proven_apply (.noteVerifyKey i a key keyIp) hproven
  | verifyContact i a => exact h.proven_apply (.verifyContact i a) hproven

theorem alive_step (h : w.table.Shaped) (halive : Alive (w.step op).table id ip) :
    Alive w.table id ip ∨ op.Enlivens id ip := by
  cases op with
  | gated c verified provenAlive now => exact (gated_gatedAddContact ..).alive h halive
  | setIpFilter ipFilter => exact .inl halive
  | seed contacts now => exact .inl ((standing_seed now contacts h id ip).2.2 halive)
  | sweep now maxProbes => exact .inl (alive_apply h (.sweep now maxProbes) trivial halive)
  | remove i => exact .inl (alive_apply h (.remove i) trivial halive)
  | noteVerifyKey i a key keyIp =>
    exact .inl (alive_apply h (.noteVerifyKey i a key keyIp) trivial halive)
  | verifyContact i a =>
    exact .inl (alive_apply h (.verifyContact i a) trivial halive)

/-- The standing of a contact goes back to steps that named its id at its address. -/
theorem standing_run (selfId : Kad128) (ops : List LiveOp) :
    (((World.new selfId).run ops).table.Proven id ip → ∃ op ∈ ops, op.Vouches id ip) ∧
      (Alive ((World.new selfId).run ops).table id ip → ∃ op ∈ ops, op.Enlivens id ip) := by
  induction ops using List.reverseRecOn with
  | nil =>
    constructor
    · rintro ⟨c, hc, -⟩
      exact absurd hc List.not_mem_nil
    · rintro ⟨c, hc, -⟩
      exact absurd hc List.not_mem_nil
  | append_singleton ops op ih =>
    have hshaped := (guarded_run selfId ops).shaped
    have hrun : (World.new selfId).run (ops ++ [op]) = ((World.new selfId).run ops).step op :=
      List.foldl_concat ..
    rw [hrun]
    constructor
    · intro hproven
      rcases proven_step hshaped hproven with hbefore | hvouches
      · exact (ih.1 hbefore).imp fun op' hop' => ⟨List.mem_append_left _ hop'.1, hop'.2⟩
      · exact ⟨op, List.mem_append_right _ (List.mem_singleton_self op), hvouches⟩
    · intro halive
      rcases alive_step hshaped halive with hbefore | henlivens
      · exact (ih.2 hbefore).imp fun op' hop' => ⟨List.mem_append_left _ hop'.1, hop'.2⟩
      · exact ⟨op, List.mem_append_right _ (List.mem_singleton_self op), henlivens⟩

end World

end PadMule.Engine.KadGate
