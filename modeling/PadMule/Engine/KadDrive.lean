import PadMule.Engine.KadGate
import PadMule.Kad.Lookup

/-
  `mule-engine/src/kad_live.rs`: the lookup on the socket.

  `drive_lookup` starts from the closest verified contacts of the live table and turns what its
  `CSearch` asks for into datagrams. An answer goes two ways: into the table through the insert
  gate, and into the search through `frontierFilter` and the table's `isAcceptableAnswer`, which is
  asked after the adds. Neither of these tests an address, so an answer can name any address at
  all, and a verified contact without a verify key is moved by the adds before the table is asked.
  `harmless` is the condition on an answer under which neither happens.
  `Drive` keeps beside the lookup whom it dialled and what each answer brought in. The read loop
  may change the table between two events, in any way a run of table operations can.
-/

namespace PadMule.Engine.KadDrive

open PadMule.Proto PadMule.Kad KadGate

/-- The contacts asked for in a FIND; a longer answer is dropped whole. -/
def KAD_REQUESTED_CONTACTS : Nat := 11

def isLanIp (ip : UInt32) : Bool :=
  isAcceptableContactIp ip true && !isAcceptableContactIp ip false

/-- The loop of `frontier_filter`. -/
def retainFrontier (seenIps : List UInt32) (subnets : UInt32 → Nat) :
    List WireContact → List WireContact
  | [] => []
  | c :: rest =>
    if c.ip ∈ seenIps then retainFrontier seenIps subnets rest
    else if isLanIp c.ip then c :: retainFrontier (c.ip :: seenIps) subnets rest
    else if 2 ≤ subnets (net24 c.ip) then retainFrontier (c.ip :: seenIps) subnets rest
    else
      c :: retainFrontier (c.ip :: seenIps)
        (Function.update subnets (net24 c.ip) (subnets (net24 c.ip) + 1)) rest

/-- Every ip once and two contacts of a /24, the responder's own counted. -/
def frontierFilter (responderIp : UInt32) (contacts : List WireContact) : List WireContact :=
  retainFrontier [responderIp] (Function.update (fun _ => 0) (net24 responderIp) 1) contacts

/-- What a reply carries: its payload, whether it echoed our key, and the key of the peer. -/
structure ReplyAnswer where
  payload : Bytes
  verified : Bool
  senderVk : UInt32

/-- The clock and our public ip at a reply. -/
structure Moment where
  now : UInt64
  ourIp : UInt32

def noteResponder (t : RoutingTable) (ipFilter : Option IpFilter) (m : Moment) (c : WireContact)
    (answer : ReplyAnswer) : RoutingTable :=
  (gatedAddContact t ipFilter c answer.verified false m.now).noteVerifyKey c.id c.ip
    answer.senderVk m.ourIp

/-- The contacts of an answer, offered to the table one after another. -/
def offer (ipFilter : Option IpFilter) (m : Moment) (t : RoutingTable)
    (contacts : List WireContact) : RoutingTable :=
  contacts.foldl (fun t c => gatedAddContact t ipFilter c false false m.now) t

def absorbFindAnswer (t : RoutingTable) (ipFilter : Option IpFilter) (m : Moment)
    (responder : WireContact) (answer : ReplyAnswer) (contacts : List WireContact) :
    List WireContact × RoutingTable :=
  let t := offer ipFilter m (noteResponder t ipFilter m responder answer) contacts
  ((frontierFilter responder.ip contacts).filter fun c =>
    t.isAcceptableAnswer c.id c.ip c.udpPort, t)

/-! ## The lookup -/

inductive ReqKind where
  | find
  | value
deriving DecidableEq

/-- An answer that was absorbed: the table before it, and whom it may have brought in. -/
structure Absorbed where
  table : RoutingTable
  responder : WireContact
  entered : List WireContact

structure Drive where
  table : RoutingTable
  ipFilter : Option IpFilter
  /-- Values are stored, not asked for. -/
  publishing : Bool
  search : CSearch
  findsInflight : Nat
  inflight : List (ReqKind × WireContact)
  seeds : List WireContact
  /-- Everybody a datagram was sent to. -/
  dialled : List WireContact
  absorbed : List Absorbed

/-- Without a verified contact there is no lookup. -/
def start (t : RoutingTable) (ipFilter : Option IpFilter) (publishing : Bool) (target : Kad128)
    (findBudget valueBudget : Nat) : Option Drive :=
  let seeds := (t.closestTo target 50).map wire
  if seeds.isEmpty then none
  else some
    { table := t, ipFilter, publishing
      search := .new target seeds findBudget valueBudget K
      findsInflight := 0, inflight := [], seeds, dialled := [], absorbed := [] }

/-- `sent` says whether a datagram goes out. -/
inductive DriveEvent where
  | progress (sent : WireContact → Bool)
  | reply (i : Nat) (answer : ReplyAnswer) (m : Moment) (sent : WireContact → Bool)
  | timeout (i : Nat)
  /-- The task of a request dies. -/
  | lost (i : Nat)
  /-- The read loop works on the table. -/
  | table (ops : List RoutingOp)

namespace Drive

def dialFind (sent : WireContact → Bool) (w : Drive) (c : WireContact) : Drive :=
  let w := { w with dialled := w.dialled ++ [c] }
  if sent c then
    { w with inflight := w.inflight ++ [(.find, c)], findsInflight := w.findsInflight + 1 }
  else { w with search := w.search.onTimeout c }

def dialValue (sent : WireContact → Bool) (w : Drive) (c : WireContact) : Drive :=
  let w := { w with dialled := w.dialled ++ [c] }
  if sent c then { w with inflight := w.inflight ++ [(.value, c)] } else w

/-- Value asks first, then as many FINDs as are free. -/
def progress (sent : WireContact → Bool) (w : Drive) : Drive :=
  let asks := w.search.harvest
  let w := asks.1.foldl (dialValue sent) { w with search := asks.2 }
  let finds := w.search.refill (ALPHA_QUERY - w.findsInflight)
  finds.1.foldl (dialFind sent) { w with search := finds.2 }

/-- A usable answer to a FIND, with the dispatches it allows at once. -/
def findAnswer (w : Drive) (responder : WireContact) (answer : ReplyAnswer) (m : Moment)
    (sent : WireContact → Bool) (contacts : List WireContact) : Drive :=
  let r := absorbFindAnswer w.table w.ipFilter m responder answer contacts
  let s := w.search.onResponse responder r.1 (ALPHA_QUERY - w.findsInflight)
  s.1.foldl (dialFind sent)
    { w with
      table := r.2
      search := s.2
      absorbed := w.absorbed ++ [⟨w.table, responder, w.search.entering responder r.1⟩] }

/-- A request is over. -/
def settle (w : Drive) (i : Nat) (kind : ReqKind) : Drive :=
  { w with
    inflight := w.inflight.eraseIdx i
    findsInflight := if kind = .find then w.findsInflight - 1 else w.findsInflight }

/-- The contacts of an answer that is used: it parses and is not too long. -/
def usable (payload : Bytes) : Option (List WireContact) :=
  match parseKad2Res payload with
  | .ok res => if res.contacts.length ≤ KAD_REQUESTED_CONTACTS then some res.contacts else none
  | .error _ => none

def parsesValue (w : Drive) (payload : Bytes) : Bool :=
  if w.publishing then (parsePublishRes payload).isOk else (parseSearchRes payload).isOk

def step (w : Drive) : DriveEvent → Drive
  | .progress sent => w.progress sent
  | .reply i answer m sent =>
    match w.inflight[i]? with
    | none => w
    | some (.find, responder) =>
      let w := w.settle i .find
      match usable answer.payload with
      | some contacts => w.findAnswer responder answer m sent contacts
      | none => { w with search := w.search.onTimeout responder }
    | some (.value, responder) =>
      let w := w.settle i .value
      if w.parsesValue answer.payload then
        { w with table := noteResponder w.table w.ipFilter m responder answer }
      else w
  | .timeout i =>
    match w.inflight[i]? with
    | none => w
    | some (.find, c) =>
      let w := w.settle i .find
      { w with search := w.search.onTimeout c }
    | some (.value, _) => w.settle i .value
  -- which kind died is not known, so a FIND is discounted in any case
  | .lost i => if i < w.inflight.length then w.settle i .find else w
  | .table ops => { w with table := w.table.run ops }

def run (w : Drive) (events : List DriveEvent) : Drive := events.foldl step w

end Drive

/-! ## One answer -/

/-- At most one contact of an ip and two of a /24 that is not private, the responder counted. -/
structure Sparse (responderIp : UInt32) (contacts : List WireContact) : Prop where
  ips : ∀ ip, contacts.countP (·.ip = ip) + (if ip = responderIp then 1 else 0) ≤ 1
  subnets : ∀ net, contacts.countP (fun c => !isLanIp c.ip && net24 c.ip = net) +
    (if net = net24 responderIp then 1 else 0) ≤ 2

theorem countP_retainFrontier_ip (seenIps : List UInt32) (subnets : UInt32 → Nat)
    (contacts : List WireContact) (ip : UInt32) :
    (retainFrontier seenIps subnets contacts).countP (·.ip = ip) +
      (if ip ∈ seenIps then 1 else 0) ≤ 1 := by
  induction contacts generalizing seenIps subnets with
  | nil =>
    rw [retainFrontier, List.countP_nil]
    split_ifs <;> omega
  | cons c rest ih =>
    -- a kept contact takes the one place of its ip
    have hkeep (subnets : UInt32 → Nat) (hnew : c.ip ∉ seenIps) :
        (c :: retainFrontier (c.ip :: seenIps) subnets rest).countP (·.ip = ip) +
          (if ip ∈ seenIps then 1 else 0) ≤ 1 := by
      have hrest := ih (c.ip :: seenIps) subnets
      rw [List.countP_cons]
      by_cases hip : c.ip = ip
      · subst hip
        simp only [List.mem_cons_self, hnew, if_true, if_false, decide_true] at hrest ⊢
        omega
      · have hmem : ip ∈ c.ip :: seenIps ↔ ip ∈ seenIps :=
          List.mem_cons.trans (or_iff_right fun heq => hip heq.symm)
        simp only [hmem, hip, decide_false, Bool.false_eq_true, if_false] at hrest ⊢
        omega
    have hdrop : (retainFrontier (c.ip :: seenIps) subnets rest).countP (·.ip = ip) +
        (if ip ∈ seenIps then 1 else 0) ≤ 1 := by
      refine le_trans (Nat.add_le_add_left ?_ _) (ih (c.ip :: seenIps) subnets)
      by_cases hip : ip ∈ seenIps
      · rw [if_pos hip, if_pos (List.mem_cons_of_mem _ hip)]
      · rw [if_neg hip]
        exact Nat.zero_le _
    rw [retainFrontier]
    by_cases hseen : c.ip ∈ seenIps
    · rw [if_pos hseen]
      exact ih seenIps subnets
    · rw [if_neg hseen]
      by_cases hlan : isLanIp c.ip = true
      · rw [if_pos hlan]
        exact hkeep subnets hseen
      · rw [if_neg hlan]
        by_cases hfull : 2 ≤ subnets (net24 c.ip)
        · rw [if_pos hfull]
          exact hdrop
        · rw [if_neg hfull]
          exact hkeep _ hseen

theorem countP_retainFrontier_subnet (seenIps : List UInt32) (subnets : UInt32 → Nat)
    (contacts : List WireContact) (net : UInt32) (h : subnets net ≤ 2) :
    (retainFrontier seenIps subnets contacts).countP
      (fun c => !isLanIp c.ip && net24 c.ip = net) + subnets net ≤ 2 := by
  induction contacts generalizing seenIps subnets with
  | nil => simpa [retainFrontier] using h
  | cons c rest ih =>
    rw [retainFrontier]
    split_ifs with hseen hlan hfull
    · exact ih seenIps subnets h
    · rw [List.countP_cons_of_neg (by simp [hlan])]
      exact ih _ subnets h
    · exact ih _ subnets h
    · by_cases hnet : net24 c.ip = net
      · subst hnet
        have hroom : Function.update subnets (net24 c.ip) (subnets (net24 c.ip) + 1)
            (net24 c.ip) = subnets (net24 c.ip) + 1 := Function.update_self ..
        have hrest := ih (c.ip :: seenIps) _ (hroom.trans_le (by omega))
        rw [hroom] at hrest
        rw [List.countP_cons_of_pos (by simpa using hlan)]
        omega
      · have hsame : Function.update subnets (net24 c.ip) (subnets (net24 c.ip) + 1) net =
            subnets net := Function.update_of_ne (Ne.symm hnet) ..
        have hrest := ih (c.ip :: seenIps) _ (hsame.trans_le h)
        rw [hsame] at hrest
        rw [List.countP_cons_of_neg (by simp [hnet])]
        exact hrest

theorem sparse_frontierFilter (responderIp : UInt32) {contacts l : List WireContact}
    (h : l.Sublist (frontierFilter responderIp contacts)) : Sparse responderIp l where
  ips ip := by
    have hall := countP_retainFrontier_ip [responderIp]
      (Function.update (fun _ => 0) (net24 responderIp) 1) contacts ip
    simp only [List.mem_singleton] at hall
    exact (Nat.add_le_add_right h.countP_le _).trans hall
  subnets net := by
    have hstart : Function.update (fun _ => 0) (net24 responderIp) 1 net =
        if net = net24 responderIp then 1 else 0 := Function.update_apply ..
    have hall := countP_retainFrontier_subnet [responderIp]
      (Function.update (fun _ => 0) (net24 responderIp) 1) contacts net
      (by rw [hstart]; split_ifs <;> omega)
    rw [hstart] at hall
    exact (Nat.add_le_add_right h.countP_le _).trans hall

/-- An answer that aims at nobody: whom the frontier keeps passes the tests of an address, unless
    the table refuses it, and no contact that is verified without a verify key is named at another
    address that passes. -/
structure Harmless (t : RoutingTable) (ipFilter : Option IpFilter) (responder : WireContact)
    (contacts : List WireContact) : Prop where
  addresses : ∀ c ∈ frontierFilter responder.ip contacts, c.id ≠ responder.id →
    t.isAcceptableAnswer c.id c.ip c.udpPort = true → addressPasses ipFilter c = true
  steady : ∀ c ∈ contacts, c.id ≠ responder.id → addressPasses ipFilter c = true →
    ∀ k ∈ t.contacts, k.id = c.id → k.verified = true → k.udpKey = 0 →
      k.ip = c.ip ∧ k.udpPort = c.udpPort

instance (t : RoutingTable) (ipFilter : Option IpFilter) (responder : WireContact)
    (contacts : List WireContact) : Decidable (Harmless t ipFilter responder contacts) :=
  decidable_of_iff ((∀ c ∈ frontierFilter responder.ip contacts, c.id ≠ responder.id →
      t.isAcceptableAnswer c.id c.ip c.udpPort = true → addressPasses ipFilter c = true) ∧
    ∀ c ∈ contacts, c.id ≠ responder.id → addressPasses ipFilter c = true →
      ∀ k ∈ t.contacts, k.id = c.id → k.verified = true → k.udpKey = 0 →
        k.ip = c.ip ∧ k.udpPort = c.udpPort)
    ⟨fun h => ⟨h.1, h.2⟩, fun h => ⟨h.addresses, h.steady⟩⟩

/-- A verified contact where it was. -/
structure Stands (k k' : Contact) : Prop where
  id : k'.id = k.id
  ip : k'.ip = k.ip
  udpPort : k'.udpPort = k.udpPort
  udpKey : k'.udpKey = k.udpKey
  verified : k'.verified = true

theorem Stands.trans {k k' k'' : Contact} (h : Stands k k') (h' : Stands k' k'') : Stands k k'' :=
  ⟨h'.id.trans h.id, h'.ip.trans h.ip, h'.udpPort.trans h.udpPort, h'.udpKey.trans h.udpKey,
    h'.verified⟩

variable {t : RoutingTable}

theorem gatedAddContact_cases (t : RoutingTable) (ipFilter : Option IpFilter) (c : WireContact)
    (verified : Bool) (now : UInt64) :
    gatedAddContact t ipFilter c verified false now = t ∨ (addressPasses ipFilter c = true ∧
      gatedAddContact t ipFilter c verified false now = (t.add (sighting c verified)).2) := by
  unfold gatedAddContact
  split_ifs with hpass hcrowded
  · exact .inl rfl
  · exact .inl rfl
  · exact .inr ⟨by simpa using hpass, rfl⟩

theorem shaped_gatedAddContact (h : t.Shaped) (ipFilter : Option IpFilter) (c : WireContact)
    (verified : Bool) (now : UInt64) :
    (gatedAddContact t ipFilter c verified false now).Shaped := by
  rcases gatedAddContact_cases t ipFilter c verified now with heq | ⟨-, heq⟩
  · rw [heq]
    exact h
  · rw [heq]
    exact h.add _

theorem shaped_noteResponder (h : t.Shaped) (ipFilter : Option IpFilter) (m : Moment)
    (responder : WireContact) (answer : ReplyAnswer) :
    (noteResponder t ipFilter m responder answer).Shaped :=
  (shaped_gatedAddContact h ipFilter responder answer.verified m.now).run
    [.noteVerifyKey responder.id responder.ip answer.senderVk m.ourIp]

theorem shaped_offer (h : t.Shaped) (ipFilter : Option IpFilter) (m : Moment)
    (contacts : List WireContact) : (offer ipFilter m t contacts).Shaped := by
  induction contacts generalizing t with
  | nil => exact h
  | cons c contacts ih => exact ih (shaped_gatedAddContact h ipFilter c false m.now)

variable {ipFilter : Option IpFilter} {m : Moment}

/-- The adds leave a verified contact where it is, unless one without a key is named elsewhere. -/
theorem stands_offer (h : t.Shaped) {contacts : List WireContact} {k : Contact}
    (hk : k ∈ t.contacts) (hverified : k.verified = true)
    (hnamed : k.udpKey = 0 → ∀ c ∈ contacts, c.id = k.id → addressPasses ipFilter c = true →
      k.ip = c.ip ∧ k.udpPort = c.udpPort) :
    ∃ k' ∈ (offer ipFilter m t contacts).contacts, Stands k k' := by
  induction contacts generalizing t k with
  | nil => exact ⟨k, hk, rfl, rfl, rfl, rfl, hverified⟩
  | cons c contacts ih =>
    have hone : ∃ k' ∈ (gatedAddContact t ipFilter c false false m.now).contacts,
        Stands k k' := by
      rcases gatedAddContact_cases t ipFilter c false m.now with heq | ⟨hpass, heq⟩
      · rw [heq]
        exact ⟨k, hk, rfl, rfl, rfl, rfl, hverified⟩
      · rw [heq]
        rcases h.add_keeps (sighting c false) hk with hsame | ⟨hid, -, hfree, hnew⟩
        · exact ⟨k, hsame, rfl, rfl, rfl, rfl, hverified⟩
        · have haddress : k.ip = c.ip ∧ k.udpPort = c.udpPort := by
            by_cases hkey : k.udpKey = 0
            · exact hnamed hkey c (List.mem_cons_self ..) hid.symm hpass
            · exact Contact.address_of_not_denies rfl hkey hfree
          refine ⟨_, hnew, ?_⟩
          obtain ⟨hid', hip', -, -⟩ := (t.contact (sighting c false)).replacing_fields k
          have hsameIp : k.ip = (t.contact (sighting c false)).ip := haddress.1
          refine ⟨hid'.trans hid.symm, hip'.trans haddress.1.symm, ?_,
            (Contact.replacing_key hsameIp rfl).1, ?_⟩
          · rw [(Contact.replacing_ports _ _).1]
            exact haddress.2.symm
          · rw [Contact.replacing_verified hsameIp, hverified, Bool.or_true]
    obtain ⟨k', hk', hstands⟩ := hone
    have hrest : k'.udpKey = 0 → ∀ c' ∈ contacts, c'.id = k'.id →
        addressPasses ipFilter c' = true → k'.ip = c'.ip ∧ k'.udpPort = c'.udpPort := by
      intro hkey c' hc' hid hpass
      rw [hstands.ip, hstands.udpPort]
      exact hnamed (hstands.udpKey ▸ hkey) c' (List.mem_cons_of_mem _ hc')
        (hid.trans hstands.id) hpass
    obtain ⟨k'', hk'', hstands'⟩ :=
      ih (shaped_gatedAddContact h ipFilter c false m.now) hk' hstands.verified hrest
    exact ⟨k'', hk'', hstands.trans hstands'⟩

theorem mem_noteResponder (h : t.Shaped) {responder : WireContact} {answer : ReplyAnswer}
    {k : Contact} (hk : k ∈ t.contacts) (hid : k.id ≠ responder.id) :
    k ∈ (noteResponder t ipFilter m responder answer).contacts := by
  have hadded : k ∈
      (gatedAddContact t ipFilter responder answer.verified false m.now).contacts := by
    rcases gatedAddContact_cases t ipFilter responder answer.verified m.now with heq | ⟨-, heq⟩
    · rw [heq]
      exact hk
    · rw [heq]
      rcases h.add_keeps (sighting responder answer.verified) hk with hsame | ⟨hsame, -⟩
      · exact hsame
      · exact absurd hsame hid
  rcases (Zone.touched_alter responder.id _ _).keeps hadded with hsame | ⟨hsame, -⟩
  · exact hsame
  · exact absurd hsame hid

/-- A harmless answer brings in only contacts that pass, and none that is verified elsewhere. -/
theorem Harmless.entering {responder : WireContact} {contacts : List WireContact}
    (h : Harmless t ipFilter responder contacts) (hshaped : t.Shaped) (answer : ReplyAnswer)
    {c : WireContact}
    (hc : c ∈ (absorbFindAnswer t ipFilter m responder answer contacts).1)
    (hid : c.id ≠ responder.id) :
    addressPasses ipFilter c = true ∧ ∀ k ∈ t.contacts, k.id = c.id → k.verified = true →
      k.ip = c.ip ∧ k.udpPort = c.udpPort := by
  obtain ⟨hfrontier, haccept⟩ := List.mem_filter.mp hc
  have hsteady : ∀ k ∈ t.contacts, k.id = c.id → k.verified = true →
      k.ip = c.ip ∧ k.udpPort = c.udpPort := by
    intro k hk hkid hverified
    have hother : k.id ≠ responder.id := hkid ▸ hid
    have hnamed : k.udpKey = 0 → ∀ c' ∈ contacts, c'.id = k.id →
        addressPasses ipFilter c' = true → k.ip = c'.ip ∧ k.udpPort = c'.udpPort :=
      fun hkey c' hc' hsame hpass =>
        h.steady c' hc' (hsame ▸ hother) hpass k hk hsame.symm hverified hkey
    have hnoted := shaped_noteResponder hshaped ipFilter m responder answer
    obtain ⟨k', hk', hstands⟩ :=
      stands_offer (m := m) hnoted (mem_noteResponder hshaped hk hother) hverified hnamed
    have hfind := (shaped_offer hnoted ipFilter m contacts).find_eq hk'
    rw [hstands.id, hkid] at hfind
    unfold RoutingTable.isAcceptableAnswer at haccept
    rw [hfind] at haccept
    dsimp only at haccept
    rw [if_pos hstands.verified, Bool.and_eq_true, decide_eq_true_eq, decide_eq_true_eq,
      hstands.ip, hstands.udpPort] at haccept
    exact haccept
  refine ⟨h.addresses c hfrontier hid ?_, hsteady⟩
  unfold RoutingTable.isAcceptableAnswer
  cases hfind : t.contacts.find? fun o => o.id = c.id with
  | none => rfl
  | some k =>
    have hkid : k.id = c.id := by simpa using List.find?_some hfind
    dsimp only
    split_ifs with hverified
    · obtain ⟨hip, hport⟩ := hsteady k (List.mem_of_find?_eq_some hfind) hkid hverified
      simp [hip, hport]
    · rfl

/-! ## What a step does -/

namespace Drive

/-- Everybody the lookup may turn to, and everybody it has, is of a kind. -/
structure Covers (P : WireContact → Prop) (w : Drive) : Prop where
  candidates : w.search.Only P
  dialled : ∀ c ∈ w.dialled, P c

/-- The contacts `cs` are dialled. -/
structure Dials (cs : List WireContact) (w w' : Drive) : Prop where
  table : w'.table = w.table
  ipFilter : w'.ipFilter = w.ipFilter
  seeds : w'.seeds = w.seeds
  absorbed : w'.absorbed = w.absorbed
  covers : ∀ P, w.Covers P → (∀ c ∈ cs, P c) → w'.Covers P

theorem Covers.dial {P : WireContact → Prop} {w : Drive} (h : w.Covers P) {c : WireContact}
    (hc : P c) : ∀ d ∈ w.dialled ++ [c], P d := by
  intro d hd
  rcases List.mem_append.mp hd with hd | hd
  · exact h.dialled d hd
  · exact List.mem_singleton.mp hd ▸ hc

theorem dials_dialFind (sent : WireContact → Bool) (w : Drive) (c : WireContact) :
    Dials [c] w (w.dialFind sent c) := by
  unfold dialFind
  dsimp only
  split_ifs
  · exact ⟨rfl, rfl, rfl, rfl, fun P h hc =>
      ⟨h.candidates, h.dial (hc c (List.mem_singleton_self c))⟩⟩
  · exact ⟨rfl, rfl, rfl, rfl, fun P h hc =>
      ⟨h.candidates.onTimeout c, h.dial (hc c (List.mem_singleton_self c))⟩⟩

theorem dials_dialValue (sent : WireContact → Bool) (w : Drive) (c : WireContact) :
    Dials [c] w (w.dialValue sent c) := by
  unfold dialValue
  dsimp only
  split_ifs
  · exact ⟨rfl, rfl, rfl, rfl, fun P h hc =>
      ⟨h.candidates, h.dial (hc c (List.mem_singleton_self c))⟩⟩
  · exact ⟨rfl, rfl, rfl, rfl, fun P h hc =>
      ⟨h.candidates, h.dial (hc c (List.mem_singleton_self c))⟩⟩

theorem dials_foldl {f : Drive → WireContact → Drive} (hf : ∀ w c, Dials [c] w (f w c))
    (cs : List WireContact) (w : Drive) : Dials cs w (cs.foldl f w) := by
  induction cs generalizing w with
  | nil => exact ⟨rfl, rfl, rfl, rfl, fun P h _ => h⟩
  | cons c cs ih =>
    have hone := hf w c
    have hrest := ih (f w c)
    refine ⟨hrest.table.trans hone.table, hrest.ipFilter.trans hone.ipFilter,
      hrest.seeds.trans hone.seeds, hrest.absorbed.trans hone.absorbed, fun P h hcs => ?_⟩
    obtain ⟨hc, hcs⟩ := List.forall_mem_cons.mp hcs
    exact hrest.covers P (hone.covers P h (List.forall_mem_singleton.mpr hc)) hcs

/-- A step in which no answer is absorbed. -/
structure Plain (w w' : Drive) : Prop where
  ipFilter : w'.ipFilter = w.ipFilter
  seeds : w'.seeds = w.seeds
  absorbed : w'.absorbed = w.absorbed
  shaped : w.table.Shaped → w'.table.Shaped
  covers : ∀ P, w.Covers P → w'.Covers P

/-- A step in which one is. -/
structure Absorbs (w w' : Drive) (responder : WireContact) (frontier : List WireContact)
    (table : RoutingTable) : Prop where
  ipFilter : w'.ipFilter = w.ipFilter
  seeds : w'.seeds = w.seeds
  absorbed : w'.absorbed =
    w.absorbed ++ [⟨w.table, responder, w.search.entering responder frontier⟩]
  table : w'.table = table
  covers : ∀ P, w.Covers P → (∀ c ∈ w.search.entering responder frontier, P c) → w'.Covers P

theorem plain_refl (w : Drive) : Plain w w := ⟨rfl, rfl, rfl, fun h => h, fun _ h => h⟩

theorem plain_settle (w : Drive) (i : Nat) (kind : ReqKind) : Plain w (w.settle i kind) :=
  ⟨rfl, rfl, rfl, fun h => h, fun _ h => ⟨h.candidates, h.dialled⟩⟩

theorem plain_settle_timeout (w : Drive) (i : Nat) (c : WireContact) :
    Plain w { w.settle i .find with search := (w.settle i .find).search.onTimeout c } :=
  ⟨rfl, rfl, rfl, fun h => h, fun _ h => ⟨h.candidates.onTimeout c, h.dialled⟩⟩

theorem plain_progress (sent : WireContact → Bool) (w : Drive) : Plain w (w.progress sent) := by
  have hasks := dials_foldl (dials_dialValue sent) w.search.harvest.1
    { w with search := w.search.harvest.2 }
  unfold progress
  dsimp only
  generalize w.search.harvest.1.foldl (dialValue sent) { w with search := w.search.harvest.2 } = w'
    at hasks ⊢
  have hfinds := dials_foldl (dials_dialFind sent)
    (w'.search.refill (ALPHA_QUERY - w'.findsInflight)).1
    { w' with search := (w'.search.refill (ALPHA_QUERY - w'.findsInflight)).2 }
  refine ⟨hfinds.ipFilter.trans hasks.ipFilter, hfinds.seeds.trans hasks.seeds,
    hfinds.absorbed.trans hasks.absorbed, fun h => ?_, fun P h => ?_⟩
  · rw [hfinds.table]
    show w'.table.Shaped
    rw [hasks.table]
    exact h
  · obtain ⟨hasked, honly⟩ := CSearch.only_walk w.search h.candidates
    have hcovers := hasks.covers P ⟨honly, h.dialled⟩ hasked
    obtain ⟨hout, honly'⟩ := hcovers.candidates.refill (ALPHA_QUERY - w'.findsInflight)
    exact hfinds.covers P ⟨honly', hcovers.dialled⟩ hout

theorem absorbs_findAnswer (w : Drive) (responder : WireContact) (answer : ReplyAnswer)
    (m : Moment) (sent : WireContact → Bool) (contacts : List WireContact) :
    Absorbs w (w.findAnswer responder answer m sent contacts) responder
      (absorbFindAnswer w.table w.ipFilter m responder answer contacts).1
      (absorbFindAnswer w.table w.ipFilter m responder answer contacts).2 := by
  unfold findAnswer
  dsimp only
  generalize absorbFindAnswer w.table w.ipFilter m responder answer contacts = r
  have hdials := dials_foldl (dials_dialFind sent)
    (w.search.onResponse responder r.1 (ALPHA_QUERY - w.findsInflight)).1
    { w with
      table := r.2
      search := (w.search.onResponse responder r.1 (ALPHA_QUERY - w.findsInflight)).2
      absorbed := w.absorbed ++ [⟨w.table, responder, w.search.entering responder r.1⟩] }
  refine ⟨hdials.ipFilter, hdials.seeds, hdials.absorbed, hdials.table, fun P h hnew => ?_⟩
  obtain ⟨hout, honly⟩ := h.candidates.onResponse hnew (ALPHA_QUERY - w.findsInflight)
  exact hdials.covers P ⟨honly, h.dialled⟩ hout

/-- What a step can do: nothing is absorbed, or an answer to a FIND in flight is. -/
theorem step_cases (w : Drive) (e : DriveEvent) : Plain w (w.step e) ∨
    ∃ i answer m sent responder contacts, e = .reply i answer m sent ∧
      w.inflight[i]? = some (.find, responder) ∧ usable answer.payload = some contacts ∧
      Absorbs w (w.step e) responder
        (absorbFindAnswer w.table w.ipFilter m responder answer contacts).1
        (absorbFindAnswer w.table w.ipFilter m responder answer contacts).2 := by
  cases e with
  | progress sent => exact .inl (plain_progress sent w)
  | reply i answer m sent =>
    rcases hslot : w.inflight[i]? with - | ⟨kind, responder⟩
    · refine .inl ?_
      rw [step, hslot]
      exact plain_refl w
    · cases kind with
      | find =>
        cases husable : usable answer.payload with
        | none =>
          refine .inl ?_
          rw [step, hslot]
          dsimp only
          rw [husable]
          exact plain_settle_timeout w i responder
        | some contacts =>
          refine .inr ⟨i, answer, m, sent, responder, contacts, rfl, hslot, husable, ?_⟩
          rw [step, hslot]
          dsimp only
          rw [husable]
          have h := absorbs_findAnswer (w.settle i .find) responder answer m sent contacts
          exact ⟨h.ipFilter, h.seeds, h.absorbed, h.table,
            fun P hw => h.covers P ⟨hw.candidates, hw.dialled⟩⟩
      | value =>
        refine .inl ?_
        rw [step, hslot]
        dsimp only
        split_ifs
        · exact ⟨rfl, rfl, rfl, fun h => shaped_noteResponder h _ _ responder answer,
            fun _ h => ⟨h.candidates, h.dialled⟩⟩
        · exact plain_settle w i .value
  | timeout i =>
    refine .inl ?_
    rcases hslot : w.inflight[i]? with - | ⟨kind, c⟩
    · rw [step, hslot]
      exact plain_refl w
    · rw [step, hslot]
      cases kind with
      | find => exact plain_settle_timeout w i c
      | value => exact plain_settle w i .value
  | lost i =>
    refine .inl ?_
    rw [step]
    split_ifs
    · exact plain_settle w i .find
    · exact plain_refl w
  | table ops =>
    exact .inl ⟨rfl, rfl, rfl, fun h => h.run ops, fun _ h => ⟨h.candidates, h.dialled⟩⟩

/-! ## Runs -/

/-- Where the lookup knows a contact from: it was a seed, or an answer brought it in. -/
def Named (w : Drive) (c : WireContact) : Prop :=
  c ∈ w.seeds ∨ ∃ a ∈ w.absorbed, c ∈ a.entered

/-- What holds in any run. -/
structure Traced (w : Drive) : Prop where
  shaped : w.table.Shaped
  covers : w.Covers w.Named
  sparse : ∀ a ∈ w.absorbed, Sparse a.responder.ip a.entered

theorem Covers.mono {P Q : WireContact → Prop} {w : Drive} (h : w.Covers P)
    (hpq : ∀ c, P c → Q c) : w.Covers Q :=
  ⟨fun e he => hpq _ (h.candidates e he), fun c hc => hpq c (h.dialled c hc)⟩

theorem Traced.step {w : Drive} (h : w.Traced) (e : DriveEvent) : (w.step e).Traced := by
  rcases w.step_cases e with hplain | ⟨i, answer, m, sent, responder, contacts, -, -, -, habsorbs⟩
  · refine ⟨hplain.shaped h.shaped, ?_, ?_⟩
    · have hsame : (w.step e).Named = w.Named := by
        unfold Named
        rw [hplain.seeds, hplain.absorbed]
      rw [hsame]
      exact hplain.covers _ h.covers
    · rw [hplain.absorbed]
      exact h.sparse
  · refine ⟨?_, ?_, ?_⟩
    · rw [habsorbs.table]
      exact shaped_offer (shaped_noteResponder h.shaped _ _ responder answer) _ _ contacts
    · have hold : ∀ c, w.Named c → (w.step e).Named c := by
        rintro c (hseed | ⟨a, ha, hc⟩)
        · exact .inl (habsorbs.seeds ▸ hseed)
        · exact .inr ⟨a, habsorbs.absorbed ▸ List.mem_append_left _ ha, hc⟩
      refine habsorbs.covers _ (h.covers.mono hold) fun c hc => .inr ?_
      rw [habsorbs.absorbed]
      exact ⟨_, List.mem_append_right _ (List.mem_singleton_self _), hc⟩
    · intro a ha
      rw [habsorbs.absorbed] at ha
      rcases List.mem_append.mp ha with ha | ha
      · exact h.sparse a ha
      · rw [List.mem_singleton.mp ha]
        exact sparse_frontierFilter responder.ip
          ((CSearch.entering_sublist _ _ _).trans List.filter_sublist)

/-- An answer that the step absorbs is harmless. -/
def Tame (w : Drive) : DriveEvent → Prop
  | .reply i answer _ _ => ∀ responder contacts, w.inflight[i]? = some (.find, responder) →
      usable answer.payload = some contacts → Harmless w.table w.ipFilter responder contacts
  | _ => True

def TameRun : Drive → List DriveEvent → Prop
  | _, [] => True
  | w, e :: events => w.Tame e ∧ TameRun (w.step e) events

/-- No answer aimed the lookup at anybody. -/
structure Unaimed (ipFilter : Option IpFilter) (w : Drive) : Prop where
  /-- Everybody dialled has an address that the insert gate would let pass. -/
  passes : ∀ c ∈ w.dialled, addressPasses ipFilter c = true
  /-- Whoever is dialled, or may yet be, was a seed or brought in by an answer, -/
  named : ∀ c, c ∈ w.dialled ∨ (∃ e ∈ w.search.possible, e.2 = c) →
    c ∈ w.seeds ∨ ∃ a ∈ w.absorbed, c ∈ a.entered
  /-- and no answer brought in a contact that was verified at another address, -/
  steady : ∀ a ∈ w.absorbed, ∀ c ∈ a.entered, ∀ k ∈ a.table.contacts, k.id = c.id →
    k.verified = true → k.ip = c.ip ∧ k.udpPort = c.udpPort
  /-- nor more than its share of an ip or a /24. -/
  sparse : ∀ a ∈ w.absorbed, Sparse a.responder.ip a.entered

/-- What holds of a run of harmless answers. -/
structure Sheltered (ipFilter : Option IpFilter) (w : Drive) : Prop extends Traced w where
  filter : w.ipFilter = ipFilter
  seeds : ∀ c ∈ w.seeds, addressPasses ipFilter c = true
  entered : ∀ a ∈ w.absorbed, ∀ c ∈ a.entered, addressPasses ipFilter c = true ∧
    ∀ k ∈ a.table.contacts, k.id = c.id → k.verified = true → k.ip = c.ip ∧ k.udpPort = c.udpPort

variable {ipFilter : Option IpFilter} {w : Drive}

theorem Sheltered.unaimed (h : Sheltered ipFilter w) : w.Unaimed ipFilter where
  passes c hc := by
    rcases h.covers.dialled c hc with hseed | ⟨a, ha, hentered⟩
    · exact h.seeds c hseed
    · exact (h.entered a ha c hentered).1
  named c hc := by
    rcases hc with hdialled | ⟨e, he, rfl⟩
    · exact h.covers.dialled c hdialled
    · exact h.covers.candidates e he
  steady a ha c hc := (h.entered a ha c hc).2
  sparse := h.sparse

theorem Sheltered.step (h : Sheltered ipFilter w) {e : DriveEvent} (htame : w.Tame e) :
    Sheltered ipFilter (w.step e) := by
  have htraced := h.toTraced.step e
  rcases w.step_cases e with
    hplain | ⟨i, answer, m, sent, responder, contacts, rfl, hslot, husable, habsorbs⟩
  · refine ⟨htraced, hplain.ipFilter.trans h.filter, ?_, ?_⟩
    · rw [hplain.seeds]
      exact h.seeds
    · rw [hplain.absorbed]
      exact h.entered
  · refine ⟨htraced, habsorbs.ipFilter.trans h.filter, ?_, fun a ha c hc => ?_⟩
    · rw [habsorbs.seeds]
      exact h.seeds
    · rw [habsorbs.absorbed] at ha
      rcases List.mem_append.mp ha with ha | ha
      · exact h.entered a ha c hc
      · rw [List.mem_singleton.mp ha] at hc ⊢
        obtain ⟨hfrontier, hother⟩ := CSearch.ne_of_mem_entering hc
        have hharmless := htame responder contacts hslot husable
        rw [← h.filter]
        exact hharmless.entering h.shaped answer hfrontier hother

theorem Sheltered.run (h : Sheltered ipFilter w) {events : List DriveEvent}
    (htame : w.TameRun events) : Sheltered ipFilter (w.run events) := by
  induction events generalizing w with
  | nil => exact h
  | cons e events ih => exact ih (h.step htame.1) htame.2

theorem sheltered_start {t : RoutingTable} (hshaped : t.Shaped)
    (hpass : ∀ c ∈ t.contacts, addressPasses ipFilter (wire c) = true) {publishing : Bool}
    {target : Kad128} {findBudget valueBudget : Nat}
    (h : start t ipFilter publishing target findBudget valueBudget = some w) :
    Sheltered ipFilter w := by
  unfold start at h
  dsimp only at h
  split_ifs at h
  obtain rfl := Option.some.inj h
  have hseeds : ∀ c ∈ (t.closestTo target 50).map wire, addressPasses ipFilter c = true := by
    intro c hc
    obtain ⟨k, hk, rfl⟩ := List.mem_map.mp hc
    have hsorted := List.mem_of_mem_take hk
    rw [List.mem_insertionSort] at hsorted
    exact hpass k (List.mem_filter.mp hsorted).1
  refine ⟨⟨hshaped, ⟨?_, fun c hc => absurd hc List.not_mem_nil⟩,
    fun a ha => absurd ha List.not_mem_nil⟩, rfl, hseeds, fun a ha => absurd ha List.not_mem_nil⟩
  exact CSearch.only_new (fun c hc => .inl hc) findBudget valueBudget K

/-- A lookup from a live table whose contacts pass the tests of the insert gate, in which every
    answer that is absorbed is harmless, is aimed at nobody. -/
theorem harmless_answers_aim_at_nobody (selfId : Kad128) (ops : List RoutingOp)
    (ipFilter : Option IpFilter) (publishing : Bool) (target : Kad128)
    (findBudget valueBudget : Nat) (events : List DriveEvent) {w : Drive}
    (hpass : ∀ c ∈ ((RoutingTable.new selfId).run ops).contacts,
      addressPasses ipFilter (wire c) = true)
    (hstart : start ((RoutingTable.new selfId).run ops) ipFilter publishing target findBudget
      valueBudget = some w)
    (htame : w.TameRun events) : (w.run events).Unaimed ipFilter := by
  have hshaped := (RoutingTable.shaped_new selfId).run ops
  exact ((sheltered_start hshaped hpass hstart).run htame).unaimed

end Drive

open Drive

/-! ## Answers of a verified contact -/

/-- The node that is sent the FIND. -/
def askedNode : WireContact := ⟨⟨8, 0, 0, 0⟩, 0x08080808, 4672, 4662, 8⟩

/-- A table that holds it, verified. -/
def liveTable : RoutingTable := (RoutingTable.new ⟨1, 0, 0, 0⟩).run [.add (sighting askedNode true)]

/-- A FIND goes out, the read loop works on the table, and the responder names one contact. -/
def answered (ops : List RoutingOp) (c : WireContact) : List DriveEvent :=
  [.progress fun _ => true, .table ops,
    .reply 0 ⟨(buildKad2Res ⟨0, 0, 0, 0⟩ [c]).2, true, 7⟩ ⟨0, 0⟩ fun _ => true]

/-- A contact with a public address that nobody knows is dialled. -/
theorem harmless_answer_dials_friend :
    let friend : WireContact := ⟨⟨0, 0, 0, 1⟩, 0x09090909, 4672, 4662, 8⟩
    ∃ w, start liveTable none false ⟨0, 0, 0, 0⟩ 36 10 = some w ∧
      friend ∈ (w.run (answered [] friend)).dialled ∧
      (w.run (answered [] friend)).Unaimed none := by
  intro friend
  have hsome : (start liveTable none false ⟨0, 0, 0, 0⟩ 36 10).isSome = true := by decide +kernel
  have hdialled : (start liveTable none false ⟨0, 0, 0, 0⟩ 36 10).all fun w =>
      decide (friend ∈ (w.run (answered [] friend)).dialled) := by decide +kernel
  have hharmless : (start liveTable none false ⟨0, 0, 0, 0⟩ 36 10).all fun w =>
      let w' := (w.progress fun _ => true).step (.table [])
      decide (w'.inflight[0]? = some (.find, askedNode) ∧
        Harmless w'.table w'.ipFilter askedNode [friend]) := by decide +kernel
  have husable : usable (buildKad2Res ⟨0, 0, 0, 0⟩ [friend]).2 = some [friend] := by decide +kernel
  obtain ⟨w, hw⟩ := Option.isSome_iff_exists.mp hsome
  rw [hw, Option.all_some, decide_eq_true_eq] at hdialled
  rw [hw, Option.all_some, decide_eq_true_eq] at hharmless
  refine ⟨w, hw, hdialled, harmless_answers_aim_at_nobody ⟨1, 0, 0, 0⟩
    [.add (sighting askedNode true)] none false ⟨0, 0, 0, 0⟩ 36 10 _ (by decide +kernel) hw
    ⟨trivial, trivial, fun r contacts hslot hcontacts => ?_, trivial⟩⟩
  cases hharmless.1.symm.trans hslot
  cases husable.symm.trans hcontacts
  exact hharmless.2

/-- The responder names ourselves, at 127.0.0.1, and we are dialled; and it names a contact that
    was verified without a key, which is dialled at the address the responder gives. -/
theorem hostile_answer_aims :
    let loopback : WireContact := ⟨⟨0, 0, 0, 1⟩, 0x7F000001, 4672, 4662, 8⟩
    let known : WireContact := ⟨⟨0, 0, 0, 2⟩, 0x09090909, 4672, 4662, 8⟩
    let moved : WireContact := ⟨⟨0, 0, 0, 2⟩, 0x0B0B0B0B, 4672, 4662, 8⟩
    (∀ c ∈ liveTable.contacts, addressPasses none (wire c) = true) ∧
    ∃ w, start liveTable none false ⟨0, 0, 0, 0⟩ 36 10 = some w ∧
      ¬(w.run (answered [] loopback)).Unaimed none ∧
      moved ∈ (w.run (answered [.add (sighting known true)] moved)).dialled ∧
      ¬(w.run (answered [.add (sighting known true)] moved)).Unaimed none := by
  intro loopback known moved
  have hsome : (start liveTable none false ⟨0, 0, 0, 0⟩ 36 10).isSome = true := by decide +kernel
  have hloopback : (start liveTable none false ⟨0, 0, 0, 0⟩ 36 10).all fun w =>
      decide (loopback ∈ (w.run (answered [] loopback)).dialled) := by decide +kernel
  have hmoved : (start liveTable none false ⟨0, 0, 0, 0⟩ 36 10).all fun w =>
      let w' := w.run (answered [.add (sighting known true)] moved)
      decide (moved ∈ w'.dialled ∧ ∃ a ∈ w'.absorbed, moved ∈ a.entered ∧
        ∃ k ∈ a.table.contacts, k.id = moved.id ∧ k.verified = true ∧ k.ip ≠ moved.ip) := by
    decide +kernel
  obtain ⟨w, hw⟩ := Option.isSome_iff_exists.mp hsome
  rw [hw, Option.all_some, decide_eq_true_eq] at hloopback
  rw [hw, Option.all_some, decide_eq_true_eq] at hmoved
  obtain ⟨hdialled, a, ha, hentered, k, hk, hid, hverified, hip⟩ := hmoved
  refine ⟨by decide +kernel, w, hw, fun h => ?_, hdialled, fun h => ?_⟩
  · exact absurd (h.passes loopback hloopback) (by decide)
  · exact hip (h.steady a ha moved hentered k hk hid hverified).1

end PadMule.Engine.KadDrive
