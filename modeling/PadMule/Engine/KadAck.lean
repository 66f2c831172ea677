import PadMule.Kad.Eviction
import PadMule.Kad.Message
import PadMule.Kad.UdpObf
import PadMule.Lib.FileMap

/-
  `mule-engine/src/kad_live.rs` and `kad_serve.rs`: the acknowledgement of a HELLO_RES.

  A HELLO_RES that goes out is noted by the ip it goes to, and an acknowledgement from there uses
  the note up, whatever becomes of it. It marks the contact it names only if the note was recent,
  the datagram carried the key we issue for that ip and the table holds the contact there.
  The clock of `World` is in nanoseconds and only moves on.
-/

namespace PadMule.Engine.KadAck

open PadMule.Proto PadMule.Kad FileMap

def ACK_SOLICITED_WINDOW : Nat := 180000000000

def MAX_TRACKED_IPS : Nat := 4096

/-- When the last HELLO_RES went to an ip. -/
abbrev OutTrack := Dir UInt32 Nat

/-- Prunes first, and then takes no new ip past the cap. -/
def noteHelloResSent (sent : OutTrack) (ip : UInt32) (now : Nat) : OutTrack :=
  let m := sent.filter fun e => now - e.2 < ACK_SOLICITED_WINDOW
  if m.length < MAX_TRACKED_IPS || ip ∈ names m then write m ip now else m

/-- The entry goes whether it is recent or not. -/
def takeHelloResSent (sent : OutTrack) (ip : UInt32) (now : Nat) : Bool × OutTrack :=
  match get sent ip with
  | some t => (now - t < ACK_SOLICITED_WINDOW, remove sent ip)
  | none => (false, sent)

inductive AckVerdict where
  | markSenderVerified (senderId : Kad128)
  | drop

def acceptHelloResAck (payload : Bytes) (helloResRecentlySent validReceiverKey : Bool) :
    AckVerdict :=
  match parseHelloResAck payload with
  | .error _ => .drop
  | .ok senderId =>
    if !helloResRecentlySent then .drop
    else if !validReceiverKey then .drop
    else .markSenderVerified senderId

/-- What is left of a datagram behind the obfuscation and the framing. -/
structure Datagram where
  fromIp : UInt32
  opcode : UInt8
  payload : Bytes
  receiverVk : UInt32

structure World where
  table : RoutingTable
  sent : OutTrack
  now : Nat
  /-- The sources whose acknowledgement marked a contact, the last one first. -/
  marked : List UInt32

def World.new (selfId : Kad128) : World := ⟨.new selfId, [], 0, []⟩

inductive Event where
  | wait (duration : Nat)
  | helloRes (ip : UInt32)
  | datagram (d : Datagram)
  /-- Anything else that changes the table. -/
  | table (op : RoutingOp)

def Event.isHelloRes (ip : UInt32) : Event → Bool
  | .helloRes ip' => ip' = ip
  | _ => false

def Event.isAckFrom (ip : UInt32) : Event → Bool
  | .datagram d => d.opcode = OP_HELLO_RES_ACK && d.fromIp = ip
  | _ => false

@[simp] theorem Event.isAckFrom_datagram (d : Datagram) (ip : UInt32) :
    (Event.datagram d).isAckFrom ip = (decide (d.opcode = OP_HELLO_RES_ACK) && d.fromIp = ip) := rfl

section

variable (md5 : Bytes → Hash16) (udpKey : UInt32)

namespace World

/-- The branch of the read loop for an acknowledgement. -/
def ack (w : World) (d : Datagram) : World :=
  let validReceiverKey : Bool := d.receiverVk = udpVerifyKey md5 udpKey d.fromIp
  let solicited := takeHelloResSent w.sent d.fromIp w.now
  let w := { w with sent := solicited.2 }
  match acceptHelloResAck d.payload solicited.1 validReceiverKey with
  | .markSenderVerified senderId =>
    let r := w.table.verifyContact senderId d.fromIp
    { w with table := r.2, marked := if r.1 then d.fromIp :: w.marked else w.marked }
  | .drop => w

def step (w : World) : Event → World
  | .wait duration => { w with now := w.now + duration }
  | .helloRes ip => { w with sent := noteHelloResSent w.sent ip w.now }
  | .datagram d => if d.opcode = OP_HELLO_RES_ACK then w.ack md5 udpKey d else w
  | .table op => { w with table := w.table.apply op }

def run (w : World) (events : List Event) : World := events.foldl (step md5 udpKey) w

end World

end

/-! ## The out-track map -/

theorem nodup_filter {sent : OutTrack} (h : (names sent).Nodup) (p : UInt32 × Nat → Bool) :
    (names (sent.filter p)).Nodup := (List.filter_sublist.map _).nodup h

theorem nodup_noteHelloResSent {sent : OutTrack} (h : (names sent).Nodup) (ip : UInt32)
    (now : Nat) : (names (noteHelloResSent sent ip now)).Nodup := by
  unfold noteHelloResSent
  dsimp only
  split_ifs
  · exact nodup_write (nodup_filter h _) ip now
  · exact nodup_filter h _

theorem length_noteHelloResSent {sent : OutTrack} (h : sent.length ≤ MAX_TRACKED_IPS) (ip : UInt32)
    (now : Nat) : (noteHelloResSent sent ip now).length ≤ MAX_TRACKED_IPS := by
  unfold noteHelloResSent
  generalize hm : sent.filter (fun e => decide (now - e.2 < ACK_SOLICITED_WINDOW)) = m
  have hlen : m.length ≤ MAX_TRACKED_IPS := by
    rw [← hm]
    exact (List.length_filter_le _ _).trans h
  dsimp only
  split_ifs with hroom
  · rw [Bool.or_eq_true, decide_eq_true_eq, decide_eq_true_eq] at hroom
    rcases hroom with hlt | hmem
    · exact (length_write_le m ip now).trans hlt
    · exact (length_write_of_mem hmem now).trans hlen
  · exact hlen

/-- An entry is the new one or was there. -/
theorem get_noteHelloResSent {sent : OutTrack} (h : (names sent).Nodup) {ip ip' : UInt32}
    {now t : Nat} (hget : get (noteHelloResSent sent ip now) ip' = some t) :
    (ip' = ip ∧ t = now) ∨ get sent ip' = some t := by
  have hkept (hget : get (sent.filter fun e => decide (now - e.2 < ACK_SOLICITED_WINDOW)) ip' =
      some t) : get sent ip' = some t := by
    rw [get_eq_some_iff (nodup_filter h _)] at hget
    exact (get_eq_some_iff h).mpr (List.mem_filter.mp hget).1
  unfold noteHelloResSent at hget
  dsimp only at hget
  split_ifs at hget
  · rw [get_write] at hget
    split_ifs at hget with hip
    · exact .inl ⟨hip, (Option.some.inj hget).symm⟩
    · exact .inr (hkept hget)
  · exact .inr (hkept hget)

theorem takeHelloResSent_eq (sent : OutTrack) (ip : UInt32) (now : Nat) :
    takeHelloResSent sent ip now =
      ((get sent ip).any fun t => now - t < ACK_SOLICITED_WINDOW, remove sent ip) := by
  unfold takeHelloResSent
  cases hget : get sent ip with
  | some t => rfl
  | none =>
    have hnone : remove sent ip = sent := by
      refine List.filter_eq_self.mpr fun e he => decide_eq_true fun hip => ?_
      exact absurd hget (mem_names_iff.mp (hip ▸ List.mem_map_of_mem he))
    rw [hnone]
    rfl

/-! ## One acknowledgement -/

section

variable {md5 : Bytes → Hash16} {udpKey : UInt32} {selfId : Kad128} {w : World}

/-- What an acknowledgement does: it always uses the note up, and it marks a contact or leaves all
    of them alone. -/
inductive Acked (md5 : Bytes → Hash16) (udpKey : UInt32) (w : World) (d : Datagram) :
    World → Prop where
  | dropped {table : RoutingTable} (hshaped : table.Shaped)
      (hsame : ∀ c' ∈ table.contacts, c' ∈ w.table.contacts) :
      Acked md5 udpKey w d { w with table, sent := remove w.sent d.fromIp }
  | marks {table : RoutingTable} {senderId : Kad128} {t : Nat} (hshaped : table.Shaped)
      (hparse : parseHelloResAck d.payload = .ok senderId)
      (hkey : d.receiverVk = udpVerifyKey md5 udpKey d.fromIp)
      (hstored : w.table.ipOf senderId = some d.fromIp)
      (hsent : get w.sent d.fromIp = some t) (hrecent : w.now - t < ACK_SOLICITED_WINDOW)
      (hothers : ∀ c' ∈ table.contacts, c' ∈ w.table.contacts ∨
        (c'.id = senderId ∧ c'.ip = d.fromIp)) :
      Acked md5 udpKey w d
        { w with table, sent := remove w.sent d.fromIp, marked := d.fromIp :: w.marked }

theorem acceptHelloResAck_cases (payload : Bytes) (solicited validReceiverKey : Bool) :
    acceptHelloResAck payload solicited validReceiverKey = .drop ∨
      ∃ senderId, parseHelloResAck payload = .ok senderId ∧ solicited = true ∧
        validReceiverKey = true ∧
        acceptHelloResAck payload solicited validReceiverKey = .markSenderVerified senderId := by
  unfold acceptHelloResAck
  cases parseHelloResAck payload with
  | error e => exact .inl rfl
  | ok senderId =>
    cases solicited with
    | false => exact .inl rfl
    | true =>
      cases validReceiverKey with
      | false => exact .inl rfl
      | true => exact .inr ⟨senderId, rfl, rfl, rfl, rfl⟩

/-- A contact is marked only at the ip it is held at. -/
theorem mem_verifyContact {t : RoutingTable} (h : t.Shaped) {id : Kad128} {ip : UInt32}
    {c' : Contact} (hc' : c' ∈ (t.verifyContact id ip).2.contacts) : c' ∈ t.contacts ∨
      ((t.verifyContact id ip).1 = true ∧ c'.id = id ∧ c'.ip = ip) := by
  rcases (Zone.touched_alter id (fun c => if c.ip = ip then { c with verified := true } else c)
    t.root).mem h.wellFormed.ids hc' with ⟨hc, -⟩ | ⟨o, ho, rfl, rfl⟩
  · exact .inl hc
  · split_ifs with hip
    · refine .inr ⟨?_, rfl, hip⟩
      unfold RoutingTable.verifyContact
      rw [h.find_eq ho]
      exact decide_eq_true hip
    · exact .inl ho

theorem ipOf_of_verifyContact {t : RoutingTable} {id : Kad128} {ip : UInt32}
    (h : (t.verifyContact id ip).1 = true) : t.ipOf id = some ip := by
  obtain ⟨c, hfind, hip⟩ := (Option.any_eq_true _ _).mp h
  rw [RoutingTable.ipOf, hfind]
  exact congrArg some (of_decide_eq_true hip)

theorem acked (hshaped : w.table.Shaped) (d : Datagram) :
    Acked md5 udpKey w d (w.ack md5 udpKey d) := by
  unfold World.ack
  rw [takeHelloResSent_eq]
  dsimp only
  rcases acceptHelloResAck_cases d.payload
    ((get w.sent d.fromIp).any fun t => w.now - t < ACK_SOLICITED_WINDOW)
    (d.receiverVk = udpVerifyKey md5 udpKey d.fromIp) with
    hdrop | ⟨senderId, hparse, hrecent, hkey, hmark⟩
  · rw [hdrop]
    exact .dropped hshaped fun c' hc' => hc'
  · have hshaped' : (w.table.verifyContact senderId d.fromIp).2.Shaped :=
      hshaped.run [.verifyContact senderId d.fromIp]
    obtain ⟨t, hsent, hrecent⟩ := (Option.any_eq_true _ _).mp hrecent
    rw [hmark]
    dsimp only
    split_ifs with hverified
    · refine .marks hshaped' hparse (of_decide_eq_true hkey) (ipOf_of_verifyContact hverified) hsent
        (of_decide_eq_true hrecent) fun c' hc' => ?_
      exact (mem_verifyContact hshaped hc').imp_right fun h => h.2
    · refine .dropped hshaped' fun c' hc' => ?_
      exact (mem_verifyContact hshaped hc').resolve_right fun h => hverified h.1

/-! ## Runs -/

/-- There is a HELLO_RES of the run that no acknowledgement from its ip has come behind. -/
def Unused (md5 : Bytes → Hash16) (udpKey : UInt32) (selfId : Kad128) (events : List Event)
    (ip : UInt32) (t : Nat) : Prop :=
  ∃ before after, events = before ++ .helloRes ip :: after ∧
    ((World.new selfId).run md5 udpKey before).now = t ∧ ∀ e ∈ after, e.isAckFrom ip = false

structure Tracked (md5 : Bytes → Hash16) (udpKey : UInt32) (selfId : Kad128) (events : List Event)
    (w : World) : Prop where
  shaped : w.table.Shaped
  nodup : (names w.sent).Nodup
  bound : w.sent.length ≤ MAX_TRACKED_IPS
  sent : ∀ ip t, get w.sent ip = some t → Unused md5 udpKey selfId events ip t
  spent : ∀ ip, w.marked.count ip + (if get w.sent ip = none then 0 else 1) ≤
    events.countP (Event.isHelloRes ip)

theorem Unused.concat {events : List Event} {ip : UInt32} {t : Nat} {e : Event}
    (h : Unused md5 udpKey selfId events ip t) (he : e.isAckFrom ip = false) :
    Unused md5 udpKey selfId (events ++ [e]) ip t := by
  obtain ⟨before, after, rfl, ht, hafter⟩ := h
  refine ⟨before, after ++ [e], by rw [List.append_assoc, List.cons_append], ht, fun e' he' => ?_⟩
  rcases List.mem_append.mp he' with hmem | hlast
  · exact hafter e' hmem
  · rw [List.mem_singleton.mp hlast]
    exact he

theorem tracked_new (selfId : Kad128) : Tracked md5 udpKey selfId [] (World.new selfId) where
  shaped := RoutingTable.shaped_new selfId
  nodup := List.nodup_nil
  bound := Nat.zero_le _
  sent _ _ h := by cases h
  spent _ := le_rfl

variable {events : List Event}

/-- An event that leaves the notes alone. -/
theorem Tracked.keep (h : Tracked md5 udpKey selfId events w) {w' : World} {e : Event}
    (hshaped : w'.table.Shaped) (hsent : w'.sent = w.sent) (hmarked : w'.marked = w.marked)
    (hack : ∀ ip, e.isAckFrom ip = false) : Tracked md5 udpKey selfId (events ++ [e]) w' where
  shaped := hshaped
  nodup := hsent ▸ h.nodup
  bound := hsent ▸ h.bound
  sent ip t hget := (h.sent ip t (hsent ▸ hget)).concat (hack ip)
  spent ip := by
    rw [hsent, hmarked, List.countP_append]
    exact (h.spent ip).trans (Nat.le_add_right _ _)

theorem Tracked.helloRes (h : Tracked md5 udpKey selfId events w)
    (hrun : (World.new selfId).run md5 udpKey events = w) (ip : UInt32) :
    Tracked md5 udpKey selfId (events ++ [.helloRes ip])
      { w with sent := noteHelloResSent w.sent ip w.now } where
  shaped := h.shaped
  nodup := nodup_noteHelloResSent h.nodup ip w.now
  bound := length_noteHelloResSent h.bound ip w.now
  sent ip' t hget := by
    rcases get_noteHelloResSent h.nodup hget with ⟨rfl, rfl⟩ | hold
    · exact ⟨events, [], rfl, congrArg World.now hrun, fun e he => absurd he List.not_mem_nil⟩
    · exact (h.sent ip' t hold).concat rfl
  spent ip' := by
    have hspent := h.spent ip'
    rw [List.countP_append, List.countP_singleton]
    dsimp only
    by_cases hip : ip' = ip
    · have hnew : Event.isHelloRes ip' (.helloRes ip) = true := decide_eq_true hip.symm
      rw [if_pos hnew]
      split_ifs at hspent ⊢ <;> omega
    · cases hget : get (noteHelloResSent w.sent ip w.now) ip' with
      | none =>
        rw [if_pos rfl]
        omega
      | some t =>
        rcases get_noteHelloResSent h.nodup hget with ⟨hsame, -⟩ | hold
        · exact absurd hsame hip
        · rw [hold] at hspent
          rw [if_neg (Option.some_ne_none t)] at hspent ⊢
          omega

theorem Tracked.ack (h : Tracked md5 udpKey selfId events w) {d : Datagram} {w' : World}
    (hacked : Acked md5 udpKey w d w') :
    Tracked md5 udpKey selfId (events ++ [.datagram d]) w' := by
  -- the note of the source is gone, and the others are older than this datagram
  have hget {ip : UInt32} {t : Nat} (hsome : get (remove w.sent d.fromIp) ip = some t) :
      ip ≠ d.fromIp ∧ get w.sent ip = some t := by
    rw [get_remove] at hsome
    split_ifs at hsome with hip
    exact ⟨hip, hsome⟩
  have hsent (ip : UInt32) (t : Nat) (hsome : get (remove w.sent d.fromIp) ip = some t) :
      Unused md5 udpKey selfId (events ++ [.datagram d]) ip t := by
    obtain ⟨hip, hold⟩ := hget hsome
    refine (h.sent ip t hold).concat ?_
    rw [Event.isAckFrom_datagram, decide_eq_false (Ne.symm hip), Bool.and_false]
  have hcount (ip : UInt32) : (events ++ [Event.datagram d]).countP (Event.isHelloRes ip) =
      events.countP (Event.isHelloRes ip) := by
    rw [List.countP_append]
    rfl
  have hnodup : (names (remove w.sent d.fromIp)).Nodup := nodup_filter h.nodup _
  have hbound : (remove w.sent d.fromIp).length ≤ MAX_TRACKED_IPS :=
    (List.length_filter_le _ _).trans h.bound
  cases hacked with
  | dropped hshaped hsame =>
    refine ⟨hshaped, hnodup, hbound, hsent, fun ip => ?_⟩
    have hspent := h.spent ip
    rw [hcount]
    dsimp only
    rw [get_remove]
    by_cases hip : ip = d.fromIp
    · rw [if_pos hip, if_pos rfl]
      exact (Nat.add_le_add_left (Nat.zero_le _) _).trans hspent
    · rw [if_neg hip]
      exact hspent
  | @marks _ _ t hshaped hparse hkey hstored hnote hrecent hothers =>
    refine ⟨hshaped, hnodup, hbound, hsent, fun ip => ?_⟩
    have hspent := h.spent ip
    rw [hcount]
    dsimp only
    rw [get_remove, List.count_cons]
    by_cases hip : ip = d.fromIp
    · rw [hip, hnote, if_neg (Option.some_ne_none t)] at hspent
      rw [if_pos hip, if_pos rfl, hip, beq_self_eq_true, if_pos rfl]
      exact hspent
    · have hne : (d.fromIp == ip) = false := beq_eq_false_iff_ne.mpr (Ne.symm hip)
      rw [if_neg hip, hne]
      exact hspent

theorem run_concat (w : World) (events : List Event) (e : Event) :
    w.run md5 udpKey (events ++ [e]) = (w.run md5 udpKey events).step md5 udpKey e :=
  List.foldl_concat ..

theorem tracked_run (md5 : Bytes → Hash16) (udpKey : UInt32) (selfId : Kad128)
    (events : List Event) :
    Tracked md5 udpKey selfId events ((World.new selfId).run md5 udpKey events) := by
  induction events using List.reverseRecOn with
  | nil => exact tracked_new selfId
  | append_singleton events e ih =>
    rw [run_concat]
    cases e with
    | wait duration => exact ih.keep ih.shaped rfl rfl fun _ => rfl
    | helloRes ip => exact ih.helloRes rfl ip
    | datagram d =>
      rw [World.step]
      split_ifs with hack
      · exact ih.ack (acked ih.shaped d)
      · refine ih.keep ih.shaped rfl rfl fun ip => ?_
        rw [Event.isAckFrom_datagram, decide_eq_false hack, Bool.false_and]
    | table op => exact ih.keep (ih.shaped.run [op]) rfl rfl fun _ => rfl

/-- After any run: an acknowledgement leaves the contacts alone, or it marks the one it names,
    which the table holds at the source ip, and then it carries the key we issue for that ip and a
    HELLO_RES went there less than 180 s ago that no acknowledgement has used since. So no ip ever
    has more acknowledgements that marked than it was sent HELLO_RES, and the notes stay below
    their cap. -/
theorem ack_solicited_only (md5 : Bytes → Hash16) (udpKey : UInt32) (selfId : Kad128)
    (events : List Event) :
    (∀ d, d.opcode = OP_HELLO_RES_ACK →
      let w := (World.new selfId).run md5 udpKey events
      let w' := w.step md5 udpKey (.datagram d)
      (w'.marked = w.marked ∧ ∀ c' ∈ w'.table.contacts, c' ∈ w.table.contacts) ∨
      (w'.marked = d.fromIp :: w.marked ∧ ∃ senderId, parseHelloResAck d.payload = .ok senderId ∧
        (∀ c' ∈ w'.table.contacts, c' ∈ w.table.contacts ∨
          (c'.id = senderId ∧ c'.ip = d.fromIp)) ∧
        w.table.ipOf senderId = some d.fromIp ∧
        d.receiverVk = udpVerifyKey md5 udpKey d.fromIp ∧
        ∃ before after, events = before ++ .helloRes d.fromIp :: after ∧
          w.now < ((World.new selfId).run md5 udpKey before).now + ACK_SOLICITED_WINDOW ∧
          ∀ e ∈ after, e.isAckFrom d.fromIp = false)) ∧
    (∀ ip, ((World.new selfId).run md5 udpKey events).marked.count ip ≤
      events.countP (Event.isHelloRes ip)) ∧
    ((World.new selfId).run md5 udpKey events).sent.length ≤ MAX_TRACKED_IPS := by
  have htracked := tracked_run md5 udpKey selfId events
  refine ⟨fun d hop => ?_, fun ip => ?_, htracked.bound⟩
  · have hacked := @acked md5 udpKey _ htracked.shaped d
    dsimp only
    rw [World.step, if_pos hop]
    generalize ((World.new selfId).run md5 udpKey events).ack md5 udpKey d = w' at hacked
    cases hacked with
    | dropped hshaped hsame => exact .inl ⟨rfl, hsame⟩
    | marks hshaped hparse hkey hstored hnote hrecent hothers =>
      obtain ⟨before, after, hevents, ht, hafter⟩ := htracked.sent _ _ hnote
      refine .inr ⟨rfl, _, hparse, hothers, hstored, hkey, before, after, hevents, ?_, hafter⟩
      omega
  · exact (Nat.le_add_right _ _).trans (htracked.spent ip)

end

end PadMule.Engine.KadAck
