import PadMule.Engine.KadNamed

/-
  `mule-engine/src/kad_live.rs`: two nodes that talk to each other.

  Either end is a node of a run of its own, and both go on with anything else between one datagram
  and the next. A FIND is answered unless the flood gate or the blocklist is against it, and its
  answer arrives verified, with the very contacts that were picked. A HELLO of an asker that does
  not echo the right key is answered with the request to prove the address; the acknowledgement
  that comes of it marks the asker verified at the other end.
-/

namespace PadMule.Engine.KadNode

open PadMule.Proto PadMule.Kad KadGate KadDemux KadServe KadAck

def Purpose.all : List Purpose := [.bootstrap, .hello, .find, .value false, .value true]

theorem Purpose.mem_all (purpose : Purpose) : purpose ∈ all := by
  cases purpose with
  | bootstrap | hello | find => decide
  | value publishing => cases publishing <;> decide

theorem Purpose.expect_injective {purpose purpose' : Purpose}
    (h : purpose.expect = purpose'.expect) : purpose = purpose' := by
  have hall : ∀ a ∈ all, ∀ b ∈ all, a.expect = b.expect → a = b := by decide
  exact hall purpose purpose.mem_all purpose' purpose'.mem_all h

/-- The opcode is that of an answer. -/
def isAnswer (opcode : UInt8) : Bool := Purpose.all.any fun purpose => purpose.expect = opcode

section

variable {p : Primitives} {who : Identity} {ops : List NodeOp} {n : Node} {source : SocketAddr}
  {bytes : Bytes} {rand : Rand} {d : KadDemux.Datagram}

/-! ## The end that is asked -/

/-- No slot waits for what is no answer. -/
theorem Reached.deliver_eq_none (h : Reached p who ops n) (hopcode : isAnswer d.opcode = false) :
    n.deliver d = none := by
  rcases deliver_cases n d with hnone | ⟨i, w, hw, hexpect, -, -⟩
  · exact hnone
  · have hsent := h.slots w (List.mem_of_getElem? hw)
    have hno := List.any_eq_false.mp hopcode w.purpose w.purpose.mem_all
    exact absurd (decide_eq_true (hsent.expect.symm.trans hexpect)) hno

theorem Reached.turn_of_request (h : Reached p who ops n) (hopcode : isAnswer d.opcode = false)
    (hack : d.opcode ≠ OP_HELLO_RES_ACK) (rand : Rand) : n.turn p d rand = n.serve p d rand := by
  unfold Node.turn
  rw [h.deliver_eq_none hopcode]
  exact if_neg hack

/-- A request whose answer is there is answered unless the flood gate or the blocklist is against
    it. -/
theorem serve_of_answer {answer : ServeAnswer}
    (hanswer : ((n.gated d).recordHello p d).answerTo p d = some answer) (rand : Rand) :
    ((n.serve p d rand).2 = none ↔ (floodAllows n.flood d.opcode (ipU32 d.source) n.now).1 = false ∨
      ∃ f, n.live.ipFilter = some f ∧ f.isBlocked (ipU32 d.source) = true) ∧
    ∀ out, (n.serve p d rand).2 = some out →
      (n.serve p d rand).1 = ((n.gated d).recordHello p d).after d answer ∧
      out = ((n.gated d).recordHello p d).datagramOf p d answer rand := by
  have hreply : (n.gated d).reply p d rand = (((n.gated d).recordHello p d).after d answer,
      some (((n.gated d).recordHello p d).datagramOf p d answer rand)) := by
    unfold Node.reply
    dsimp only
    rw [hanswer]
    rfl
  unfold Node.serve
  dsimp only
  cases hallowed : (floodAllows n.flood d.opcode (ipU32 d.source) n.now).1 with
  | false =>
    rw [Bool.not_false, if_pos rfl]
    exact ⟨iff_of_true rfl (.inl rfl), fun out hout => by cases hout⟩
  | true =>
    rw [Bool.not_true, if_neg (by decide)]
    split_ifs with hblocked
    · rw [Option.any_eq_true] at hblocked
      exact ⟨iff_of_true rfl (.inr hblocked), fun out hout => by cases hout⟩
    · have hfree : ¬∃ f, n.live.ipFilter = some f ∧ f.isBlocked (ipU32 d.source) = true :=
        fun h => hblocked ((Option.any_eq_true _ _).mpr h)
      change (((n.gated d).reply p d rand).2 = none ↔ _) ∧
        ∀ out, ((n.gated d).reply p d rand).2 = some out →
          ((n.gated d).reply p d rand).1 = _ ∧ out = _
      rw [hreply]
      refine ⟨iff_of_false (fun hno => by cases hno) ?_, fun out hout => ⟨rfl, ?_⟩⟩
      · rintro (hno | hno)
        · cases hno
        · exact hfree hno
      · exact (Option.some.inj hout).symm

/-! ## The end that asks -/

/-- The answer to what was asked at an address goes to a slot that waits there, and is verified. -/
theorem Reached.answered (h : Reached p who ops n)
    (hopen : opened p who.kadId who.udpKey source bytes = some d)
    (hkey : d.receiverVk = udpVerifyKey p.md5 who.udpKey (ipU32 source))
    (hslot : ∃ w ∈ n.pending, w.slot.dest = source ∧ w.slot.expect = d.opcode) (rand : Rand) :
    ∃ w ∈ n.pending, w.contact.ip = ipU32 source ∧ w.purpose.expect = d.opcode ∧
      (n.receive p source bytes rand).1.replies =
        n.replies ++ [⟨w, d.payload, true, d.senderVk⟩] := by
  have hsource := source_of_opened hopen
  have hsome : position (n.pending.map Waiting.slot) d ≠ none := by
    obtain ⟨w, hw, hdest, hexpect⟩ := hslot
    unfold position
    cases hexact : (n.pending.map Waiting.slot).findIdx? fun s =>
        s.dest = d.source && s.expect = d.opcode with
    | some i => exact fun hno => by cases hno
    | none =>
      rw [List.findIdx?_eq_none_iff] at hexact
      have hno := hexact w.slot (List.mem_map_of_mem hw)
      rw [hdest, hsource, hexpect] at hno
      simp at hno
  have hdeliver : n.deliver d ≠ none := by
    unfold Node.deliver
    cases hposition : position (n.pending.map Waiting.slot) d with
    | none => exact absurd hposition hsome
    | some i =>
      obtain ⟨s, hget, -⟩ := slot_of_position hposition
      rw [List.getElem?_map, Option.map_eq_some_iff] at hget
      obtain ⟨w, hw, -⟩ := hget
      dsimp only
      rw [hw]
      exact fun hno => by cases hno
  rcases deliver_cases n d with hnone | ⟨i, w, hw, hexpect, hfrom, htaken⟩
  · exact absurd hnone hdeliver
  · have hmem := List.mem_of_getElem? hw
    have hsent := h.slots w hmem
    have hip : w.contact.ip = ipU32 source := by
      rw [hsource] at hfrom
      rcases hfrom with hdest | hdestIp
      · rw [← hdest, hsent.dest]
        rfl
      · exact hsent.destIp.symm.trans hdestIp
    refine ⟨w, hmem, hip, hsent.expect.symm.trans hexpect, ?_⟩
    have hverified : decide (d.receiverVk = w.slot.senderVk) = true :=
      decide_eq_true (by rw [hkey, hsent.senderVk, hip])
    unfold Node.receive
    rw [h.kadId, h.udpKey, hopen]
    dsimp only [Node.turn]
    rw [htaken]
    dsimp only [Node.taken]
    rw [hverified]

/-! ## A request and its answer -/

/-- What a request is on the other end. -/
def Node.asks (p : Primitives) (n : Node) (contact : WireContact) (source : SocketAddr)
    (m : UInt8 × Bytes) : KadDemux.Datagram where
  source := source
  opcode := m.1
  payload := m.2
  receiverVk := n.live.table.verifyKeyFor contact.id contact.ip n.currentPublicIp
  senderVk := udpVerifyKey p.md5 n.udpKey contact.ip

theorem opened_asks (hzlib : ZlibRoundTrips p.deflate p.inflate) (contact : WireContact)
    (purpose : Purpose) {m : UInt8 × Bytes} (hm : m.2.length ≤ 300) (udpKey : UInt32)
    (source : SocketAddr) (rand : Rand) :
    opened p contact.id udpKey source
      (n.request p contact purpose (packKad p.deflate m.1 m.2) rand).2 =
        some (n.asks p contact source m) := opened_request hzlib _ _ hm _ _ _ _ _

/-- The answer to a request, at the end that asked. -/
theorem opened_datagramOf (hzlib : ZlibRoundTrips p.deflate p.inflate) {asker : Identity}
    {a : Node} (ha : a.udpKey = asker.udpKey) (b : Node) (contact : WireContact)
    (source : SocketAddr) (m : UInt8 × Bytes) (answer : ServeAnswer) (hanswer : answer.payload.length ≤ 300) (rand : Rand) :
    opened p asker.kadId asker.udpKey (contactAddr contact.ip contact.udpPort)
      (b.datagramOf p (a.asks p contact source m) answer rand) =
        some ⟨contactAddr contact.ip contact.udpPort, answer.opcode, answer.payload,
          udpVerifyKey p.md5 asker.udpKey contact.ip,
          udpVerifyKey p.md5 b.udpKey (ipU32 source)⟩ := by
  have hkey : (a.asks p contact source m).senderVk = udpVerifyKey p.md5 asker.udpKey
      (ipU32 (contactAddr contact.ip contact.udpPort)) := congrArg (udpVerifyKey p.md5 · _) ha
  unfold Node.datagramOf
  rw [hkey]
  exact opened_response hzlib hanswer asker.kadId _ _ rand

/-- A FIND for the node it is sent to is answered, unless the flood gate or the blocklist of that
    node is against it. If the asker still waits for it then, its answer is taken for verified and
    reads back as the contacts that were picked; whatever either end has done before, and the asker
    in between. -/
theorem find_exchange (p : Primitives) (hzlib : ZlibRoundTrips p.deflate p.inflate)
    (asker responder : Identity) (ops later ops' : List NodeOp) (contact : WireContact)
    (hid : contact.id = responder.kadId) (reqType : UInt8) (htype : reqType &&& 0x1F ≠ 0)
    (target : Kad128) (source : SocketAddr) (rand rand' rand'' : Rand) :
    let m := buildKad2Req reqType target contact.id
    let frame := packKad p.deflate m.1 m.2
    let sent := (((Node.bind asker).run p ops).request p contact .find frame rand).2
    let a := (Node.bind asker).run p (ops ++ .request contact .find frame rand :: later)
    let b := (Node.bind responder).run p ops'
    let address := contactAddr contact.ip contact.udpPort
    ((b.receive p source sent rand').2 = none ↔
      (floodAllows b.flood OP_KAD2_REQ (ipU32 source) b.now).1 = false ∨
        ∃ f, b.live.ipFilter = some f ∧ f.isBlocked (ipU32 source) = true) ∧
    ∀ out, (b.receive p source sent rand').2 = some out →
      (∃ w ∈ a.pending, w.slot.dest = address ∧ w.purpose = .find) →
      ∃ r : Reply, (a.receive p address out rand'').1.replies = a.replies ++ [r] ∧
        r.waiting ∈ a.pending ∧ r.waiting.contact.ip = contact.ip ∧ r.waiting.purpose = .find ∧
        r.answer.verified = true ∧
        parseKad2Res r.answer.payload = .ok ⟨target, b.closestServing target
          (min (reqType &&& 0x1F).toNat KAD_FIND_NODE_ANSWER_CAP)⟩ := by
  intro m frame sent a b address
  have hfirst := reached_run p asker ops
  have ha := reached_run p asker (ops ++ .request contact .find frame rand :: later)
  have hb := reached_run p responder ops'
  generalize hd : ((Node.bind asker).run p ops).asks p contact source m = d
  have hopcode : d.opcode = OP_KAD2_REQ := hd ▸ rfl
  have hsource : d.source = source := hd ▸ rfl
  have hopen : opened p responder.kadId responder.udpKey source sent = some d := by
    have hm : m.2.length ≤ 300 := by
      show (writeU8 reqType ++ (target.toWire.bytes ++ contact.id.toWire.bytes)).length ≤ 300
      rw [List.length_append, List.length_append, target.toWire.len, contact.id.toWire.len]
      simp [writeU8]
    rw [← hd, ← hid]
    exact opened_asks hzlib contact .find hm _ _ _
  have hturn : b.receive p source sent rand' = b.serve p d rand' := by
    rw [receive_of_opened hopen]
    exact hb.turn_of_request (by rw [hopcode]; decide) (by rw [hopcode]; decide) _
  -- the answer is there
  generalize hnamed : b.closestServing target
    (min (reqType &&& 0x1F).toNat KAD_FIND_NODE_ANSWER_CAP) = named
  have hnames := hb.named target (min (reqType &&& 0x1F).toNat KAD_FIND_NODE_ANSWER_CAP)
    KAD_TYPE_ALIVE
  rw [show (((Node.bind responder).run p ops').live.table.closestToMaxType _ _ _).map wire = named
    from hnamed] at hnames
  have hrecord : (b.gated d).recordHello p d = b.gated d :=
    recordHello_of_ne (by rw [hopcode]; decide)
  have hanswer : ((b.gated d).recordHello p d).answerTo p d =
      some ⟨OP_KAD2_RES, (buildKad2Res target named).2, false⟩ := by
    have hpayload : d.payload = (buildKad2Req reqType target contact.id).2 := hd ▸ rfl
    have hme : (b.gated d).me.kadId = responder.kadId := hb.kadId
    rw [hrecord, Node.answerTo, answerRequest, hopcode, if_neg (by decide), if_neg (by decide),
      if_pos rfl, hpayload, parseKad2Req_build htype]
    dsimp only
    rw [hme, if_neg (by rw [hid]; exact fun hno => hno rfl)]
    show ServeAnswer.plain (buildKad2Res target ((b.closestServing target
      (min (reqType &&& 0x1F).toNat KAD_FIND_NODE_ANSWER_CAP)).take _)) = _
    rw [hnamed, List.take_of_length_le hnames.length_le]
    rfl
  obtain ⟨hnone, hsome⟩ := serve_of_answer hanswer rand'
  rw [hopcode, hsource] at hnone
  rw [hturn]
  refine ⟨hnone, fun out hout hslot => ?_⟩
  obtain ⟨-, hmade⟩ := hsome out hout
  -- and arrives
  have hlen : named.length ≤ 11 := hnames.length_le.trans (Nat.min_le_right _ _)
  have hback := opened_datagramOf hzlib hfirst.udpKey (b.gated d) contact source m
    ⟨OP_KAD2_RES, (buildKad2Res target named).2, false⟩ (by
      rw [length_buildKad2Res (by omega)]
      omega) rand'
  rw [hd] at hback
  rw [hrecord] at hmade
  rw [← hmade] at hback
  obtain ⟨w, hw, hip, hexpect, hreplies⟩ := ha.answered hback rfl (by
    obtain ⟨w, hw, hdest, hpurpose⟩ := hslot
    exact ⟨w, hw, hdest, by rw [(ha.slots w hw).expect, hpurpose]; rfl⟩) rand''
  refine ⟨_, hreplies, hw, hip, Purpose.expect_injective hexpect, rfl, ?_⟩
  exact parseKad2Res_build target (by omega) fun c hc => (hnames.foreign c hc).2

def sampleAsker : Identity where
  kadId := ⟨0x22222222, 2, 2, 2⟩
  udpKey := 999
  tcpPort := 4662
  udpPort := 4673

/-- Both nodes are behind one ip. -/
def sampleContact : WireContact := ⟨sampleIdentity.kadId, 0x08080808, 4672, 4662, 8⟩

def sampleSource : SocketAddr := .v4 0x08080808 4673

def sampleFindFrame : Bytes := packKad samplePrimitives.deflate sampleFind.1 sampleFind.2

theorem find_exchange_sample : ∃ out r,
    (((Node.bind sampleIdentity).run samplePrimitives sampleOps).receive samplePrimitives
      sampleSource (((Node.bind sampleAsker).run samplePrimitives []).request samplePrimitives
        sampleContact .find sampleFindFrame sampleRand).2 sampleRand).2 = some out ∧
    (((Node.bind sampleAsker).run samplePrimitives [.request sampleContact .find sampleFindFrame
      sampleRand]).receive samplePrimitives (contactAddr 0x08080808 4672) out
        sampleRand).1.replies = [r] ∧ r.answer.verified = true ∧
    parseKad2Res r.answer.payload = .ok ⟨⟨0x33333333, 3, 3, 3⟩,
      ((Node.bind sampleIdentity).run samplePrimitives sampleOps).closestServing
        ⟨0x33333333, 3, 3, 3⟩ 2⟩ := by
  obtain ⟨hnone, hsome⟩ := find_exchange samplePrimitives sample_roundTrips sampleAsker
    sampleIdentity [] [] sampleOps sampleContact rfl 2 (by decide)
    ⟨0x33333333, 3, 3, 3⟩ sampleSource sampleRand sampleRand sampleRand
  have hanswered := mt hnone.mp (by
    rw [run_sampleOps]
    rintro (hno | ⟨f, hf, -⟩)
    · exact absurd hno (by decide +kernel)
    · cases hf)
  obtain ⟨out, hout⟩ := Option.ne_none_iff_exists'.mp hanswered
  obtain ⟨r, hreplies, -, -, -, hverified, hparse⟩ := hsome out hout
    ⟨_, List.mem_singleton_self _, rfl, rfl⟩
  exact ⟨out, r, hout, hreplies, hverified, hparse⟩

/-! ## The handshake -/

/-- Who is held at the ip it proved is verified. -/
theorem verified_of_verifyContact {t : RoutingTable} (h : t.Shaped) {id : Kad128} {ip : UInt32}
    {c : Contact} (hc : c ∈ (t.verifyContact id ip).2.contacts) (hid : c.id = id)
    (hip : c.ip = ip) : c.verified = true := by
  rcases (Zone.touched_alter id (fun c => if c.ip = ip then { c with verified := true } else c)
    t.root).mem h.wellFormed.ids hc with ⟨-, hne⟩ | ⟨o, ho, -, rfl⟩
  · exact absurd hid hne
  · split_ifs at hip ⊢
    · rfl
    · contradiction

theorem Reached.shaped {n : Node} (h : Reached p who ops n) : n.live.table.Shaped := by
  obtain ⟨liveOps, hlive, -⟩ := h.live
  rw [hlive]
  exact (World.guarded_run who.kadId liveOps).shaped

/-- An acknowledgement that was asked for and echoes our key marks who it names. -/
theorem Reached.acknowledged (h : Reached p who ops n) (hsolicited :
      (takeHelloResSent n.helloResSent (ipU32 d.source) n.now).1 = true) (id : Kad128)
    (hpayload : d.payload = (buildHelloResAck id).2)
    (hvalid : validReceiverKey p n.udpKey d = true) {c : Contact}
    (hc : c ∈ (n.acknowledge p d).live.table.contacts) (hid : c.id = id)
    (hip : c.ip = ipU32 d.source) : c.verified = true := by
  have haccept : acceptHelloResAck d.payload
      (takeHelloResSent n.helloResSent (ipU32 d.source) n.now).1 (validReceiverKey p n.udpKey d) =
        .markSenderVerified id := by
    unfold acceptHelloResAck
    rw [hsolicited, hvalid, hpayload, parseHelloResAck_build]
    rfl
  unfold Node.acknowledge at hc
  dsimp only at hc
  rw [haccept] at hc
  exact verified_of_verifyContact h.shaped hc hid hip

/-- The HELLO_RES to a HELLO. -/
def Node.helloAnswer (p : Primitives) (n : Node) (d : KadDemux.Datagram) : ServeAnswer where
  opcode := OP_HELLO_RES
  payload := buildMyDetails n.kadId n.tcpPort (some n.advertisedUdp)
    (if !validReceiverKey p n.udpKey d then some MISC_REQUEST_ACK else none)
  requestAck := !validReceiverKey p n.udpKey d

end

end PadMule.Engine.KadNode
