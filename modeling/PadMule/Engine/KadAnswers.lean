import PadMule.Engine.KadNode

/-
  `mule-engine/src/kad_live.rs`: what a live node sends to those who ask it, over whole runs.

  `Received` says once what a turn of the read loop comes to. `Reached` goes with every run: the
  table is a run of its own operations, each of them backed by a datagram or a seed of the node's
  run, and every answer on its way was heard from the address it was asked at. With the standing of
  the contacts in the live table this says what a node vouches for when it names a contact.
-/

namespace PadMule.Engine.KadNode

open PadMule.Proto PadMule.Kad KadGate KadDemux KadDrive KadServe KadAck

section

variable {p : Primitives} {n : Node} {source : SocketAddr} {bytes : Bytes} {rand : Rand}

/-! ## One turn -/

theorem source_of_opened {kadId : Kad128} {udpKey : UInt32} {d : KadDemux.Datagram}
    (h : opened p kadId udpKey source bytes = some d) : d.source = source := by
  unfold opened at h
  cases hdec : kadDeobfuscate p.md5 (bytes.take RECV_BUFFER) kadId udpKey (ipU32 source) with
  | none =>
    rw [hdec] at h
    cases h
  | some dec =>
    rw [hdec] at h
    dsimp only at h
    cases hframe : unpackKad p.inflate dec.payload with
    | error e =>
      rw [hframe] at h
      cases h
    | ok m =>
      rw [hframe] at h
      cases h
      rfl

/-- A slot that is found waits for this opcode, at the address or at the ip. -/
theorem slot_of_position {slots : List PendingSlot} {d : KadDemux.Datagram} {i : Nat}
    (h : position slots d = some i) : ∃ s, slots[i]? = some s ∧ s.expect = d.opcode ∧
      (s.dest = d.source ∨ s.destIp = ipU32 d.source) := by
  unfold position at h
  cases hexact : slots.findIdx? fun s => s.dest = d.source && s.expect = d.opcode with
  | some j =>
    rw [hexact, Option.orElse_some] at h
    obtain rfl := Option.some.inj h
    obtain ⟨-, s, -, -, -, hs, hget, -⟩ := Slots.eraseIdx_of_findIdx? hexact
    rw [Bool.and_eq_true, decide_eq_true_eq, decide_eq_true_eq] at hs
    exact ⟨s, hget, hs.2, .inl hs.1⟩
  | none =>
    rw [hexact, Option.orElse_none] at h
    obtain ⟨-, s, -, -, -, hs, hget, -⟩ := Slots.eraseIdx_of_findIdx? h
    rw [Bool.and_eq_true, decide_eq_true_eq, decide_eq_true_eq] at hs
    exact ⟨s, hget, hs.2, .inr hs.1⟩

/-- A slot takes the datagram. -/
def Node.taken (n : Node) (i : Nat) (w : Waiting) (d : KadDemux.Datagram) : Node :=
  { n with
    pending := n.pending.eraseIdx i
    replies := n.replies ++ [⟨w, d.payload, d.receiverVk = w.slot.senderVk, d.senderVk⟩] }

theorem deliver_cases (n : Node) (d : KadDemux.Datagram) : n.deliver d = none ∨
    ∃ i w, n.pending[i]? = some w ∧ w.slot.expect = d.opcode ∧
      (w.slot.dest = d.source ∨ w.slot.destIp = ipU32 d.source) ∧
      n.deliver d = some (n.taken i w d) := by
  unfold Node.deliver
  cases hposition : position (n.pending.map Waiting.slot) d with
  | none => exact .inl rfl
  | some i =>
    obtain ⟨s, hget, hopcode, hsource⟩ := slot_of_position hposition
    rw [List.getElem?_map, Option.map_eq_some_iff] at hget
    obtain ⟨w, hw, rfl⟩ := hget
    refine .inr ⟨i, w, hw, hopcode, hsource, ?_⟩
    dsimp only
    rw [hw]
    rfl

/-- The flood gate has counted the datagram. -/
def Node.gated (n : Node) (d : KadDemux.Datagram) : Node :=
  { n with flood := (floodAllows n.flood d.opcode (ipU32 d.source) n.now).2 }

variable (p) in
/-- The node behind an answer. -/
def Node.after (n : Node) (d : KadDemux.Datagram) (answer : ServeAnswer) : Node :=
  if answer.requestAck then
    { n with helloResSent := noteHelloResSent n.helloResSent (ipU32 d.source) n.now }
  else n

theorem reply_cases (n : Node) (d : KadDemux.Datagram) (rand : Rand) :
    n.reply p d rand = (n.recordHello p d, none) ∨
      ∃ answer, (n.recordHello p d).answerTo p d = some answer ∧
        n.reply p d rand = ((n.recordHello p d).after d answer,
          some ((n.recordHello p d).datagramOf p d answer rand)) := by
  unfold Node.reply
  dsimp only
  cases hanswer : (n.recordHello p d).answerTo p d with
  | none => exact .inl rfl
  | some answer => exact .inr ⟨answer, rfl, rfl⟩

variable (p) in
/-- What a turn of the read loop comes to. -/
inductive Received (n : Node) (source : SocketAddr) (bytes : Bytes) (rand : Rand) :
    Node × Option Bytes → Prop where
  | unread (hopen : opened p n.kadId n.udpKey source bytes = none) :
      Received n source bytes rand (n, none)
  | delivered {d : KadDemux.Datagram} {i : Nat} {w : Waiting}
      (hopen : opened p n.kadId n.udpKey source bytes = some d) (hw : n.pending[i]? = some w)
      (hopcode : w.slot.expect = d.opcode)
      (hsource : w.slot.dest = source ∨ w.slot.destIp = ipU32 source) :
      Received n source bytes rand (n.taken i w d, none)
  | acknowledged {d : KadDemux.Datagram}
      (hopen : opened p n.kadId n.udpKey source bytes = some d)
      (hopcode : d.opcode = OP_HELLO_RES_ACK) :
      Received n source bytes rand (n.acknowledge p d, none)
  | refused {d : KadDemux.Datagram} (hopen : opened p n.kadId n.udpKey source bytes = some d) :
      Received n source bytes rand (n.gated d, none)
  | silent {d : KadDemux.Datagram} (hopen : opened p n.kadId n.udpKey source bytes = some d) :
      Received n source bytes rand ((n.gated d).recordHello p d, none)
  | answered {d : KadDemux.Datagram} {answer : ServeAnswer}
      (hopen : opened p n.kadId n.udpKey source bytes = some d)
      (hallowed : (floodAllows n.flood d.opcode (ipU32 source) n.now).1 = true)
      (hfree : ∀ f, n.live.ipFilter = some f → f.isBlocked (ipU32 source) = false)
      (hanswer : ((n.gated d).recordHello p d).answerTo p d = some answer) :
      Received n source bytes rand (((n.gated d).recordHello p d).after d answer,
        some (((n.gated d).recordHello p d).datagramOf p d answer rand))

theorem received (p : Primitives) (n : Node) (source : SocketAddr) (bytes : Bytes) (rand : Rand) :
    Received p n source bytes rand (n.receive p source bytes rand) := by
  unfold Node.receive
  cases hopen : opened p n.kadId n.udpKey source bytes with
  | none => exact .unread hopen
  | some d =>
    have hsource := source_of_opened hopen
    dsimp only [Node.turn]
    rcases deliver_cases n d with hnone | ⟨i, w, hw, hopcode, hfrom, hsome⟩
    · rw [hnone]
      dsimp only
      by_cases hack : d.opcode = OP_HELLO_RES_ACK
      · rw [if_pos hack]
        exact .acknowledged hopen hack
      · rw [if_neg hack]
        unfold Node.serve
        dsimp only
        by_cases hallowed : (floodAllows n.flood d.opcode (ipU32 d.source) n.now).1 = true
        · rw [hallowed, if_neg (by decide)]
          by_cases hblocked : (n.live.ipFilter.any fun f => f.isBlocked (ipU32 d.source)) = true
          · rw [if_pos hblocked]
            exact .refused hopen
          · rw [if_neg hblocked]
            have hfree : ∀ f, n.live.ipFilter = some f → f.isBlocked (ipU32 source) = false := by
              intro f hf
              rw [hf, Option.any_some, hsource] at hblocked
              exact Bool.eq_false_iff.mpr hblocked
            show Received p n source bytes rand ((n.gated d).reply p d rand)
            rcases reply_cases (n.gated d) d rand with hsilent | ⟨answer, hanswer, hreply⟩
            · rw [hsilent]
              exact .silent hopen
            · rw [hreply]
              exact .answered hopen (hsource ▸ hallowed) hfree hanswer
        · rw [Bool.eq_false_iff.mpr hallowed, if_pos (by decide)]
          exact .refused hopen
    · rw [hsome]
      rw [hsource] at hfrom
      exact .delivered hopen hw hopcode hfrom

/-! ## What the run has heard -/

variable (p) in
/-- A datagram of the run came from the ip, and opens to one that `what` holds of. -/
def HeardFrom (who : Identity) (ops : List NodeOp) (ip : UInt32)
    (what : KadDemux.Datagram → Prop) : Prop :=
  ∃ source bytes rand d, NodeOp.datagram source bytes rand ∈ ops ∧ ipU32 source = ip ∧
    opened p who.kadId who.udpKey source bytes = some d ∧ what d

variable (p) in
/-- A verified seed names the id at the ip, or a datagram from there echoes the key we issue for
    it. -/
def Vouched (who : Identity) (ops : List NodeOp) (id : Kad128) (ip : UInt32) : Prop :=
  (∃ contacts, NodeOp.seed contacts ∈ ops ∧
    ∃ c ∈ contacts, c.id = id ∧ c.ip = ip ∧ c.verified = true) ∨
  HeardFrom p who ops ip fun d => d.receiverVk = udpVerifyKey p.md5 who.udpKey ip

/-- The id was asked at the ip. -/
def Asked (ops : List NodeOp) (id : Kad128) (ip : UInt32) (purpose : Purpose) : Prop :=
  ∃ contact frame rand, NodeOp.request contact purpose frame rand ∈ ops ∧ contact.id = id ∧
    contact.ip = ip

variable (p) in
/-- A HELLO from the ip names the id, or there is an answer from there: to a HELLO to the id, or to
    a BOOTSTRAP, which names it. -/
def Enlivened (who : Identity) (ops : List NodeOp) (id : Kad128) (ip : UInt32) : Prop :=
  HeardFrom p who ops ip fun d =>
    (d.opcode = OP_HELLO_REQ ∧ ∃ h, parseHello d.payload = .ok h ∧ h.id = id) ∨
    (d.opcode = OP_HELLO_RES ∧ Asked ops id ip .hello) ∨
    (d.opcode = OP_BOOTSTRAP_RES ∧ ∃ res, parseBootstrapRes d.payload = .ok res ∧ res.id = id)

variable {who : Identity} {ops ops' : List NodeOp} {id : Kad128} {ip : UInt32}

theorem HeardFrom.mono {what what' : KadDemux.Datagram → Prop} (hops : ops ⊆ ops')
    (hwhat : ∀ d, what d → what' d) (h : HeardFrom p who ops ip what) :
    HeardFrom p who ops' ip what' := by
  obtain ⟨source, bytes, rand, d, hmem, hip, hopen, hd⟩ := h
  exact ⟨source, bytes, rand, d, hops hmem, hip, hopen, hwhat d hd⟩

theorem Vouched.mono (hops : ops ⊆ ops') (h : Vouched p who ops id ip) :
    Vouched p who ops' id ip := by
  rcases h with ⟨contacts, hmem, hc⟩ | hheard
  · exact .inl ⟨contacts, hops hmem, hc⟩
  · exact .inr (hheard.mono hops fun _ hd => hd)

theorem Asked.mono {purpose : Purpose} (hops : ops ⊆ ops') (h : Asked ops id ip purpose) :
    Asked ops' id ip purpose := by
  obtain ⟨contact, frame, rand, hmem, hid⟩ := h
  exact ⟨contact, frame, rand, hops hmem, hid⟩

theorem Enlivened.mono (hops : ops ⊆ ops') (h : Enlivened p who ops id ip) :
    Enlivened p who ops' id ip :=
  HeardFrom.mono hops (fun _ hd => hd.imp_right (Or.imp_left (And.imp_right (Asked.mono hops)))) h

variable (p) in
/-- A step of the live table is backed by what the run has heard. -/
def Backed (who : Identity) (ops : List NodeOp) (op : LiveOp) : Prop :=
  ∀ id ip, (op.Vouches id ip → Vouched p who ops id ip) ∧
    (op.Enlivens id ip → Enlivened p who ops id ip)

theorem Backed.mono {op : LiveOp} (hops : ops ⊆ ops') (h : Backed p who ops op) :
    Backed p who ops' op := fun id ip =>
  ⟨fun hop => ((h id ip).1 hop).mono hops, fun hop => ((h id ip).2 hop).mono hops⟩

/-- A step that neither names anybody as verified nor proves anybody alive. -/
theorem backed_of_mute {op : LiveOp} (hvouches : ∀ id ip, ¬op.Vouches id ip)
    (henlivens : ∀ id ip, ¬op.Enlivens id ip) : Backed p who ops op := fun id ip =>
  ⟨fun h => absurd h (hvouches id ip), fun h => absurd h (henlivens id ip)⟩

/-! ## Slots and answers -/

variable (p) in
/-- A slot of a request of the run. -/
structure Waiting.Sent (who : Identity) (ops : List NodeOp) (w : Waiting) : Prop where
  asked : Asked ops w.contact.id w.contact.ip w.purpose
  dest : w.slot.dest = contactAddr w.contact.ip w.contact.udpPort
  destIp : w.slot.destIp = w.contact.ip
  senderVk : w.slot.senderVk = udpVerifyKey p.md5 who.udpKey w.contact.ip
  expect : w.slot.expect = w.purpose.expect

variable (p) in
/-- An answer that a datagram of the run brought, from the ip that was asked. -/
structure Reply.Heard (who : Identity) (ops : List NodeOp) (r : Reply) : Prop where
  asked : Asked ops r.waiting.contact.id r.waiting.contact.ip r.waiting.purpose
  heard : HeardFrom p who ops r.waiting.contact.ip fun d =>
    d.opcode = r.waiting.purpose.expect ∧ d.payload = r.answer.payload ∧
      (r.answer.verified = true →
        d.receiverVk = udpVerifyKey p.md5 who.udpKey r.waiting.contact.ip)

theorem Waiting.Sent.mono {w : Waiting} (hops : ops ⊆ ops') (h : w.Sent p who ops) :
    w.Sent p who ops' := ⟨h.asked.mono hops, h.dest, h.destIp, h.senderVk, h.expect⟩

theorem Reply.Heard.mono {r : Reply} (hops : ops ⊆ ops') (h : r.Heard p who ops) :
    r.Heard p who ops' := ⟨h.asked.mono hops, h.heard.mono hops fun _ hd => hd⟩

/-- What goes with every run. -/
structure Reached (p : Primitives) (who : Identity) (ops : List NodeOp) (n : Node) : Prop where
  kadId : n.kadId = who.kadId
  udpKey : n.udpKey = who.udpKey
  live : ∃ liveOps, n.live = (KadGate.World.new who.kadId).run liveOps ∧
    ∀ o ∈ liveOps, Backed p who ops o
  slots : ∀ w ∈ n.pending, w.Sent p who ops
  replies : ∀ r ∈ n.replies, r.Heard p who ops

theorem reached_bind (p : Primitives) (who : Identity) : Reached p who [] (Node.bind who) where
  kadId := rfl
  udpKey := rfl
  live := ⟨[], rfl, fun _ h => absurd h List.not_mem_nil⟩
  slots _ h := absurd h List.not_mem_nil
  replies _ h := absurd h List.not_mem_nil

theorem Reached.mono (hops : ops ⊆ ops') (h : Reached p who ops n) : Reached p who ops' n where
  kadId := h.kadId
  udpKey := h.udpKey
  live := by
    obtain ⟨liveOps, hlive, hbacked⟩ := h.live
    exact ⟨liveOps, hlive, fun o ho => (hbacked o ho).mono hops⟩
  slots w hw := (h.slots w hw).mono hops
  replies r hr := (h.replies r hr).mono hops

/-- A node of the same run with another table, all whose new steps are backed. -/
theorem Reached.act (h : Reached p who ops n) {liveOps : List LiveOp}
    (hbacked : ∀ o ∈ liveOps, Backed p who ops o) {n' : Node} (hlive : n'.live = n.live.run liveOps)
    (hkadId : n'.kadId = n.kadId) (hudpKey : n'.udpKey = n.udpKey)
    (hpending : n'.pending ⊆ n.pending) (hreplies : n'.replies ⊆ n.replies) :
    Reached p who ops n' where
  kadId := hkadId.trans h.kadId
  udpKey := hudpKey.trans h.udpKey
  live := by
    obtain ⟨before, hbefore, hall⟩ := h.live
    refine ⟨before ++ liveOps, ?_, fun o ho => ?_⟩
    · rw [hlive, hbefore]
      exact (List.foldl_append ..).symm
    · rcases List.mem_append.mp ho with hold | hnew
      · exact hall o hold
      · exact hbacked o hnew
  slots w hw := h.slots w (hpending hw)
  replies r hr := h.replies r (hreplies hr)

/-- A step that leaves the table, the slots and the answers alone. -/
theorem Reached.quiet (h : Reached p who ops n) {n' : Node} (hlive : n'.live = n.live)
    (hkadId : n'.kadId = n.kadId) (hudpKey : n'.udpKey = n.udpKey)
    (hpending : n'.pending ⊆ n.pending) (hreplies : n'.replies ⊆ n.replies) :
    Reached p who ops n' := by
  have hnone : ∀ o ∈ ([] : List LiveOp), Backed p who ops o := fun o ho =>
    absurd ho List.not_mem_nil
  exact h.act hnone hlive hkadId hudpKey hpending hreplies

/-! ## The steps -/

variable {d : KadDemux.Datagram}

/-- The datagram is one of the run. -/
abbrev Here (p : Primitives) (who : Identity) (ops : List NodeOp) (d : KadDemux.Datagram) : Prop :=
  HeardFrom p who ops (ipU32 d.source) (· = d)

theorem vouched_of_key (hhere : Here p who ops d) (h : Reached p who ops n)
    (hvalid : validReceiverKey p n.udpKey d = true) : Vouched p who ops id (ipU32 d.source) := by
  refine .inr (hhere.mono (List.Subset.refl _) fun d' hd' => ?_)
  rw [hd', ← h.udpKey]
  exact of_decide_eq_true hvalid

theorem Reached.acknowledge (h : Reached p who ops n) (hhere : Here p who ops d) :
    Reached p who ops (n.acknowledge p d) := by
  have hsame {sent : OutTrack} : Reached p who ops { n with helloResSent := sent } :=
    h.quiet rfl rfl rfl (List.Subset.refl _) (List.Subset.refl _)
  unfold Node.acknowledge
  dsimp only
  rcases acceptHelloResAck_cases d.payload
    (takeHelloResSent n.helloResSent (ipU32 d.source) n.now).1 (validReceiverKey p n.udpKey d) with
    hdrop | ⟨senderId, -, -, hvalid, hmark⟩
  · rw [hdrop]
    exact hsame
  · rw [hmark]
    have hbacked : ∀ o ∈ [LiveOp.verifyContact senderId (ipU32 d.source)], Backed p who ops o := by
      intro o ho
      rw [List.mem_singleton.mp ho]
      refine fun id ip => ⟨fun hvouches => ?_, fun henlivens => henlivens.elim⟩
      rw [← hvouches.2]
      exact vouched_of_key hhere h hvalid
    exact hsame.act hbacked rfl rfl rfl (List.Subset.refl _) (List.Subset.refl _)

theorem Reached.recordHello (h : Reached p who ops n) (hhere : Here p who ops d) :
    Reached p who ops (n.recordHello p d) := by
  unfold Node.recordHello
  split_ifs with hhello
  · cases hparse : parseHello d.payload with
    | error e => exact h
    | ok hello =>
      dsimp only
      refine h.act ?_ rfl rfl rfl (List.Subset.refl _) (List.Subset.refl _)
      intro o ho
      rcases List.mem_cons.mp ho with rfl | ho
      · refine fun id ip => ⟨?_, ?_⟩
        · rintro ⟨-, rfl, hvalid⟩
          exact vouched_of_key hhere h hvalid
        · rintro ⟨rfl, rfl, -⟩
          refine hhere.mono (List.Subset.refl _) fun d' hd' => .inl ?_
          rw [hd']
          exact ⟨hhello, hello, hparse, rfl⟩
      · rw [List.mem_singleton.mp ho]
        exact backed_of_mute (fun _ _ hno => hno) fun _ _ hno => hno
  · exact h

/-- A slot that waits at the address or at the ip of a datagram was asked at this ip. -/
theorem Reached.taken (h : Reached p who ops n) (hhere : Here p who ops d) {i : Nat} {w : Waiting}
    (hw : n.pending[i]? = some w) (hopcode : w.slot.expect = d.opcode)
    (hsource : w.slot.dest = d.source ∨ w.slot.destIp = ipU32 d.source) :
    Reached p who ops (n.taken i w d) where
  kadId := h.kadId
  udpKey := h.udpKey
  live := h.live
  slots w' hw' := h.slots w' (List.eraseIdx_subset hw')
  replies r hr := by
    rcases List.mem_append.mp hr with hold | hnew
    · exact h.replies r hold
    · have hsent := h.slots w (List.mem_of_getElem? hw)
      have hip : ipU32 d.source = w.contact.ip := by
        rcases hsource with hdest | hdestIp
        · rw [← hdest, hsent.dest]
          rfl
        · exact hdestIp.symm.trans hsent.destIp
      rw [List.mem_singleton.mp hnew]
      refine ⟨hsent.asked, hip ▸ hhere.mono (List.Subset.refl _) fun d' hd' => ?_⟩
      rw [hd']
      refine ⟨hopcode.symm.trans hsent.expect, rfl, fun hverified => ?_⟩
      rw [hip]
      exact (of_decide_eq_true hverified).trans hsent.senderVk

theorem Reached.receive (h : Reached p who ops n)
    (hmem : NodeOp.datagram source bytes rand ∈ ops) :
    Reached p who ops (n.receive p source bytes rand).1 := by
  have hhere {d : KadDemux.Datagram} (hopen : opened p n.kadId n.udpKey source bytes = some d) :
      Here p who ops d := by
    have hsource := source_of_opened hopen
    rw [h.kadId, h.udpKey] at hopen
    exact ⟨source, bytes, rand, d, hmem, congrArg ipU32 hsource.symm, hopen, rfl⟩
  have hgated (d : KadDemux.Datagram) : Reached p who ops (n.gated d) :=
    h.quiet rfl rfl rfl (List.Subset.refl _) (List.Subset.refl _)
  have hreceived := received p n source bytes rand
  generalize n.receive p source bytes rand = r at hreceived
  cases hreceived with
  | unread hopen => exact h
  | delivered hopen hw hopcode hsource =>
    rw [← source_of_opened hopen] at hsource
    exact h.taken (hhere hopen) hw hopcode hsource
  | acknowledged hopen hopcode => exact h.acknowledge (hhere hopen)
  | refused hopen => exact hgated _
  | silent hopen => exact (hgated _).recordHello (hhere hopen)
  | @answered d answer hopen hallowed hfree hanswer =>
    have hrecorded := (hgated d).recordHello (hhere hopen)
    dsimp only
    unfold Node.after
    split_ifs
    · exact hrecorded.quiet rfl rfl rfl (List.Subset.refl _) (List.Subset.refl _)
    · exact hrecorded

/-! ## Answers that are absorbed -/

theorem Reply.Heard.vouched {r : Reply} (h : r.Heard p who ops)
    (hverified : r.answer.verified = true) : Vouched p who ops id r.waiting.contact.ip :=
  .inr (h.heard.mono (List.Subset.refl _) fun _ hd => hd.2.2 hverified)

/-- The two steps that note a responder at the ip it was asked at. -/
theorem backed_note {r : Reply} (h : r.Heard p who ops) (responder : WireContact)
    (hip : responder.ip = r.waiting.contact.ip) {provenAlive : Bool}
    (halive : provenAlive = true → Enlivened p who ops responder.id responder.ip)
    {now : UInt64} {senderVk ourIp : UInt32} :
    ∀ o ∈ [LiveOp.gated responder r.answer.verified provenAlive now,
      .noteVerifyKey responder.id responder.ip senderVk ourIp], Backed p who ops o := by
  intro o ho
  rcases List.mem_cons.mp ho with rfl | ho
  · refine fun id ip => ⟨?_, ?_⟩
    · rintro ⟨-, rfl, hverified⟩
      rw [hip]
      exact h.vouched hverified
    · rintro ⟨rfl, rfl, hproven⟩
      exact halive hproven
  · rw [List.mem_singleton.mp ho]
    exact backed_of_mute (fun _ _ hno => hno) fun _ _ hno => hno

/-- Contacts that are only named are neither verified nor alive. -/
theorem backed_offered (contacts : List WireContact) (now : UInt64) :
    ∀ o ∈ contacts.map fun c => LiveOp.gated c false false now, Backed p who ops o := by
  intro o ho
  obtain ⟨c, -, rfl⟩ := List.mem_map.mp ho
  refine backed_of_mute ?_ ?_
  · rintro id ip ⟨-, -, hno⟩
    cases hno
  · rintro id ip ⟨-, -, hno⟩
    cases hno

theorem backed_absorbOps (n : Node) {r : Reply} (h : r.Heard p who ops) :
    ∀ o ∈ n.absorbOps r, Backed p who ops o := by
  have hdead {responder : WireContact} (hno : false = true) :
      Enlivened p who ops responder.id responder.ip := absurd hno (by decide)
  have hnone : ∀ o ∈ ([] : List LiveOp), Backed p who ops o := fun o ho =>
    absurd ho List.not_mem_nil
  have hasked := h.asked
  have hheard := h.heard
  unfold Node.absorbOps
  cases hpurpose : r.waiting.purpose with
  | bootstrap =>
    rw [hpurpose] at hheard
    dsimp only
    cases hparse : parseBootstrapRes r.answer.payload with
    | error e => exact hnone
    | ok res =>
      let responder : WireContact :=
        ⟨res.id, r.waiting.contact.ip, r.waiting.contact.udpPort, res.tcpPort, res.version⟩
      refine List.forall_mem_append.mpr ⟨backed_note h responder rfl fun _ => ?_,
        backed_offered _ _⟩
      refine hheard.mono (List.Subset.refl _) fun d hd => .inr (.inr ⟨hd.1, res, ?_, rfl⟩)
      rw [hd.2.1]
      exact hparse
  | hello =>
    rw [hpurpose] at hheard hasked
    dsimp only
    cases hparse : parseHello r.answer.payload with
    | error e => exact hnone
    | ok hello =>
      let responder : WireContact := ⟨r.waiting.contact.id, r.waiting.contact.ip,
        r.waiting.contact.udpPort, hello.tcpPort, hello.version⟩
      refine backed_note h responder rfl fun _ => ?_
      exact hheard.mono (List.Subset.refl _) fun d hd => .inr (.inl ⟨hd.1, hasked⟩)
  | find =>
    dsimp only
    cases Drive.usable r.answer.payload with
    | none => exact hnone
    | some contacts =>
      exact List.forall_mem_append.mpr ⟨backed_note h _ rfl hdead, backed_offered _ _⟩
  | value publishing =>
    cases publishing with
    | false =>
      dsimp only
      split_ifs
      · exact backed_note h _ rfl hdead
      · exact hnone
    | true =>
      dsimp only
      split_ifs
      · exact backed_note h _ rfl hdead
      · exact hnone

/-! ## Runs -/

theorem Reached.step (h : Reached p who ops n) (op : NodeOp) :
    Reached p who (ops ++ [op]) (n.step p op).1 := by
  have hop : op ∈ ops ++ [op] := List.mem_append_right _ (List.mem_singleton_self op)
  have h : Reached p who (ops ++ [op]) n := h.mono (List.subset_append_left ..)
  have hmute (o : LiveOp) (hvouches : ∀ id ip, ¬o.Vouches id ip)
      (henlivens : ∀ id ip, ¬o.Enlivens id ip) : ∀ o' ∈ [o], Backed p who (ops ++ [op]) o' := by
    intro o' ho'
    rw [List.mem_singleton.mp ho']
    exact backed_of_mute hvouches henlivens
  cases op with
  | wait duration => exact h.quiet rfl rfl rfl (List.Subset.refl _) (List.Subset.refl _)
  | datagram source bytes rand => exact h.receive hop
  | request contact purpose frame rand =>
    refine ⟨h.kadId, h.udpKey, h.live, fun w hw => ?_, h.replies⟩
    rcases List.mem_append.mp hw with hold | hnew
    · exact h.slots w hold
    · rw [List.mem_singleton.mp hnew]
      exact ⟨⟨contact, frame, rand, hop, rfl, rfl⟩, rfl, rfl, by rw [h.udpKey]; rfl, rfl⟩
  | withdraw seq =>
    exact h.quiet rfl rfl rfl List.filter_sublist.subset (List.Subset.refl _)
  | absorb i rand =>
    show Reached p who _ (n.absorb p i rand).1
    unfold Node.absorb
    cases hr : n.replies[i]? with
    | none => exact h
    | some r =>
      have hheard := h.replies r (List.mem_of_getElem? hr)
      exact h.act (backed_absorbOps n hheard) rfl rfl rfl (List.Subset.refl _) List.eraseIdx_subset
  | setIpFilter ipFilter =>
    exact h.act (hmute (.setIpFilter ipFilter) (fun _ _ hno => hno) fun _ _ hno => hno) rfl rfl rfl
      (List.Subset.refl _) (List.Subset.refl _)
  | setPublicIp ip => exact h.quiet rfl rfl rfl (List.Subset.refl _) (List.Subset.refl _)
  | setAdvertisedUdpPort port => exact h.quiet rfl rfl rfl (List.Subset.refl _) (List.Subset.refl _)
  | seed contacts =>
    have hbacked : ∀ o ∈ [LiveOp.seed contacts n.aging],
        Backed p who (ops ++ [.seed contacts]) o := by
      intro o ho
      rw [List.mem_singleton.mp ho]
      exact fun id ip => ⟨fun hvouches => .inl ⟨contacts, hop, hvouches⟩, fun hno => hno.elim⟩
    exact h.act hbacked rfl rfl rfl (List.Subset.refl _) (List.Subset.refl _)
  | sweep maxProbes =>
    exact h.act (hmute (.sweep n.aging maxProbes) (fun _ _ hno => hno) fun _ _ hno => hno) rfl rfl
      rfl (List.Subset.refl _) (List.Subset.refl _)
  | remove i =>
    exact h.act (hmute (.remove i) (fun _ _ hno => hno) fun _ _ hno => hno) rfl rfl rfl
      (List.Subset.refl _) (List.Subset.refl _)

theorem reached_run (p : Primitives) (who : Identity) (ops : List NodeOp) :
    Reached p who ops ((Node.bind who).run p ops) := by
  induction ops using List.reverseRecOn with
  | nil => exact reached_bind p who
  | append_singleton ops op ih =>
    have hrun : (Node.bind who).run p (ops ++ [op]) =
        (((Node.bind who).run p ops).step p op).1 := List.foldl_concat ..
    rw [hrun]
    exact ih.step op

/-- A datagram that opens is a turn of the read loop. -/
theorem receive_of_opened {d : KadDemux.Datagram}
    (hopen : opened p who.kadId who.udpKey source bytes = some d) (rand : Rand) :
    ((Node.bind who).run p ops).receive p source bytes rand =
      ((Node.bind who).run p ops).turn p d rand := by
  have hreached := reached_run p who ops
  unfold Node.receive
  rw [hreached.kadId, hreached.udpKey, hopen]

theorem run_concat_of_opened (ops : List NodeOp) {d : KadDemux.Datagram}
    (hopen : opened p who.kadId who.udpKey source bytes = some d) (rand : Rand) :
    (Node.bind who).run p (ops ++ [.datagram source bytes rand]) =
      (((Node.bind who).run p ops).turn p d rand).1 := by
  rw [← receive_of_opened hopen]
  exact List.foldl_concat ..

end

end PadMule.Engine.KadNode
