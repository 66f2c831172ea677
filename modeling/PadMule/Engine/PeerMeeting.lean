import PadMule.Engine.PeerHandshake

/-
  `mule-engine/src/peer_conn.rs`: two ends that say HELLO to each other meet.

  What is in an inbox and what the other end still owes is what the end behind it expects
  (`OnCourse`). So in every order of the steps an end that gets through has the other one's HELLO,
  none fails unless one gives up, and two that stay are through after finitely many steps
  (`peers_meet`).
-/

namespace PadMule.Engine.Peer

open PadMule.Proto LittleEndian Chunks Runs

/-! ## What each end expects -/

def helloFrame (me : HelloInfo) : Bytes := writePacket (buildHello me)

def answerFrame (you : HelloInfo) : Bytes := writePacket (buildHelloAnswer you)

/-- The keystreams behind the obfuscation handshake, and what that puts on the wire. -/
structure Course where
  toAccepter : Option Rc4
  toOpener : Option Rc4
  hello : Bytes
  reply : Bytes

namespace Course

def sealedHello (k : Course) (me : HelloInfo) : Bytes := (crypt k.toAccepter (helloFrame me)).1

def afterHello (k : Course) (me : HelloInfo) : Option Rc4 := (crypt k.toAccepter (helloFrame me)).2

def sealedAnswer (k : Course) (you : HelloInfo) : Bytes := (crypt k.toOpener (answerFrame you)).1

def afterAnswer (k : Course) (you : HelloInfo) : Option Rc4 :=
  (crypt k.toOpener (answerFrame you)).2

/-- An opener with these ciphers takes the reply, and has the keystreams then. -/
def Replies (k : Course) (ciphers : StreamCiphers) : Prop :=
  ∀ {chunks : List Bytes} {rest : Bytes}, Cuts chunks (k.reply ++ rest) → ∃ ini left,
    takeReply ciphers chunks = .ok (ini, left) ∧ Cuts left rest ∧
      some ini.send = k.toAccepter ∧ some ini.recv = k.toOpener

/-- The course that a connection takes. -/
structure Leads (k : Course) (md5 : Bytes → Bytes) (me you : HelloInfo)
    (opening : Option Obfuscation) : Prop where
  plain : opening = none → k.toAccepter = none ∧ k.toOpener = none ∧ k.hello = [] ∧ k.reply = []
  opens : ∀ o, opening = some o → ∃ ciphers, sendHello (.initiator md5 o.targetHash o.randomKey)
    o.randomKey o.randomKey.toUInt8 o.padding = (k.hello, ciphers) ∧ k.Replies ciphers
  hears : opening.isSome → ∀ {chunks : List Bytes}, Cuts chunks k.hello →
    ∃ answer, obfAccept md5 you.userHash chunks = .ok answer
  accepts : ∀ {chunks : List Bytes}, Cuts chunks (k.hello ++ k.sealedHello me) →
    ∃ detected left rest, obfAccept md5 you.userHash chunks = .ok (detected, k.reply, left) ∧
      Cuts left rest ∧ detected.framed.send = k.toOpener ∧
      Coming detected.framed rest (helloFrame me) (k.afterHello me)

end Course

/-- An opener who has the accepter's hash, if it obfuscates, and the accepter are on one course. -/
theorem exists_course (md5 : Bytes → Bytes) (me you : HelloInfo) {opening : Option Obfuscation}
    (hkey : ∀ o, opening = some o → o.targetHash = you.userHash) :
    ∃ k : Course, k.Leads md5 me you opening := by
  cases opening with
  | none =>
    refine ⟨⟨none, none, [], []⟩, fun _ => ⟨rfl, rfl, rfl, rfl⟩, fun o ho => (by cases ho),
      fun hsome => (by cases hsome), fun {chunks} hcuts => ?_⟩
    have hframe : helloFrame me = [PROT_EDONKEY] ++
        (writeU32 (.ofNat (1 + (buildHello me).payload.length)) ++
          (buildHello me).opcode :: (buildHello me).payload) := rfl
    have hcuts' : Cuts chunks (helloFrame me) := hcuts
    rw [hframe] at hcuts'
    obtain ⟨left, hread, hleft⟩ := exactly_of_cuts (n := 1) hcuts' rfl
    refine ⟨.plaintext PROT_EDONKEY, left, _, ?_, hleft, rfl, hframe.symm, rfl⟩
    simp only [obfAccept, hread, bind, Except.bind]
    rfl
  | some o =>
    obtain ⟨ini, resp, reply, hsend, hrecv, haccept, hreply⟩ :=
      handshake_pairs md5 o.targetHash o.randomKey o.randomKey.toUInt8 o.padding
    rw [hkey o rfl] at haccept hreply
    refine ⟨⟨some ini.send, some ini.recv, (sendHello (.initiator md5 you.userHash o.randomKey)
      o.randomKey o.randomKey.toUInt8 o.padding).1, reply⟩, fun hnone => (by cases hnone),
      fun o' ho => ?_, fun _ {chunks} hcuts => ?_, fun {chunks} hcuts => ?_⟩
    · cases ho
      rw [hkey o rfl]
      refine ⟨_, rfl, fun {chunks rest} hcuts => ?_⟩
      obtain ⟨left, htake, hleft⟩ := hreply rest chunks hcuts
      exact ⟨ini, left, htake, hleft, rfl, rfl⟩
    · rw [← List.append_nil (sendHello _ _ _ _).1] at hcuts
      obtain ⟨left, htake, -⟩ := haccept [] chunks hcuts
      exact ⟨_, htake⟩
    · obtain ⟨left, htake, hleft⟩ := haccept _ chunks hcuts
      have hkeys : (ObfDetect.obfuscated resp).framed.recv = some ini.send :=
        congrArg some hsend.symm
      exact ⟨.obfuscated resp, left, _, htake, hleft, congrArg some hrecv.symm,
        coming_sealed _ hkeys rfl (helloFrame me)⟩

section

variable (k : Course) (me you : HelloInfo) (opening : Option Obfuscation)

/-- What is to come for an opener that is on course. -/
def Opener.Expects : Opener → Bytes → Prop
  | .connected o, rest => o = opening ∧ rest = k.reply ++ k.sealedAnswer you
  | .obfuscating ciphers, rest =>
    (opening.isSome ∧ k.Replies ciphers) ∧ rest = k.reply ++ k.sealedAnswer you
  | .ready fs, rest =>
    fs.send = k.toAccepter ∧ Coming fs rest (answerFrame you) (k.afterAnswer you)
  | .awaiting fs, rest =>
    fs.send = k.afterHello me ∧ Coming fs rest (answerFrame you) (k.afterAnswer you)
  | .met fs peer, rest =>
    (fs.send = k.afterHello me ∧ fs.recv = k.afterAnswer you ∧ fs.buf = []) ∧ peer = you.parsed ∧
      rest = []
  | .failed _, _ => True

def Accepter.Expects : Accepter → Bytes → Prop
  | .accepted, rest => rest = k.hello ++ k.sealedHello me
  | .awaiting fs, rest =>
    fs.send = k.toOpener ∧ Coming fs rest (helloFrame me) (k.afterHello me)
  | .answering fs peer, rest =>
    (fs.send = k.toOpener ∧ fs.recv = k.afterHello me ∧ fs.buf = []) ∧ peer = me.parsed ∧ rest = []
  | .met fs peer, rest =>
    (fs.send = k.afterAnswer you ∧ fs.recv = k.afterHello me ∧ fs.buf = []) ∧ peer = me.parsed ∧
      rest = []
  | .failed _, _ => True

/-- What an opener still has to write. -/
def Opener.owes : Opener → Bytes
  | .connected _ => k.hello ++ k.sealedHello me
  | .obfuscating _ | .ready _ => k.sealedHello me
  | .awaiting _ | .met _ _ | .failed _ => []

def Accepter.owes : Accepter → Bytes
  | .accepted => k.reply ++ k.sealedAnswer you
  | .awaiting _ | .answering _ _ => k.sealedAnswer you
  | .met _ _ | .failed _ => []

end

/-- How many waits an end has before it at most, but for the chunks of a frame. -/
def Opener.rank : Opener → Nat
  | .connected _ => 4
  | .obfuscating _ => 3
  | .ready _ => 2
  | .awaiting _ => 1
  | .met _ _ | .failed _ => 0

def Accepter.rank : Accepter → Nat
  | .accepted => 3
  | .awaiting _ => 2
  | .answering _ _ => 1
  | .met _ _ | .failed _ => 0

section

variable {md5 : Bytes → Bytes} {inflate : Bytes → Nat → Option Bytes}
variable {k : Course} {me you : HelloInfo} {opening : Option Obfuscation}

/-- What a turn of the opener does to what it expects and owes. -/
structure Opener.Went (k : Course) (me you : HelloInfo) (opening : Option Obfuscation)
    (o o' : Opener) (inbox more out inbox' : Bytes) (closed : Bool) : Prop where
  expects : o'.Expects k me you opening (inbox' ++ more)
  owes : o'.gone = false → out ++ o'.owes k me = o.owes k me
  silent : o'.gone = true → out = [] ∧ closed = true
  less : o'.rank + inbox'.length < o.rank + inbox.length

theorem helloOfPacket_answer (you : HelloInfo) :
    helloOfPacket OP_HELLOANSWER false (.packet (buildHelloAnswer you)) = .ok you.parsed := by
  have hopcode : (buildHelloAnswer you).opcode = OP_HELLOANSWER := rfl
  rw [helloOfPacket, if_neg (not_not.mpr hopcode), (parseHello_build you).2]
  rfl

theorem helloOfPacket_hello (me : HelloInfo) :
    helloOfPacket OP_HELLO true (.packet (buildHello me)) = .ok me.parsed := by
  have hopcode : (buildHello me).opcode = OP_HELLO := rfl
  rw [helloOfPacket, if_neg (not_not.mpr hopcode), (parseHello_build me).1]
  rfl

/-- A failed read that is only short of more has to do with nobody there to send it. -/
theorem short_closed {e : FrameError} {closed : Bool} {σ : Type} {next next' : σ}
    (he : e = .io) (hturn : (if e = .io ∧ !closed then none else some next) = some next') :
    closed = true ∧ next' = next := by
  subst he
  cases closed with
  | false => cases hturn
  | true => exact ⟨rfl, (Option.some.inj hturn).symm⟩

/-- The reply to the obfuscation hello is read where all of it is there, and waited for else. -/
theorem Course.Replies.take {ciphers : StreamCiphers} (h : k.Replies ciphers)
    {inbox more rest : Bytes} (hrest : inbox ++ more = k.reply ++ rest) :
    takeReply ciphers (chunksOf inbox) = .error .io ∨ ∃ ini left,
      takeReply ciphers (chunksOf inbox) = .ok (ini, left) ∧ left.flatten ++ more = rest ∧
        left.flatten.length ≤ inbox.length ∧ some ini.send = k.toAccepter ∧
        some ini.recv = k.toOpener := by
  have hwhole := cuts_chunksOf (inbox ++ more)
  have hsteady := steady_takeReply ciphers
  obtain ⟨ini, left', htake', hleft', hkeys⟩ := h ⟨hwhole.flatten.trans hrest, hwhole.ne⟩
  cases hread : takeReply ciphers (chunksOf inbox) with
  | error e =>
    rcases hsteady.error (cuts_chunksOf inbox) hwhole hread with hio | hbad
    · exact .inl (congrArg Except.error hio)
    · cases hbad.symm.trans htake'
  | ok read =>
    obtain ⟨left'', r, htake, hsuffix, hr, hr'⟩ :=
      hsteady.ok (cuts_chunksOf inbox) hwhole hread
    cases htake'.symm.trans htake
    refine .inr ⟨read.1, read.2, rfl, ?_, ?_, hkeys⟩
    · rw [hr.flatten]
      exact hr'.flatten.symm.trans hleft'.flatten
    · rw [hr.flatten]
      exact hsuffix.length_le

theorem Opener.Expects.turn (hk : k.Leads md5 me you opening) {o o' : Opener}
    {inbox more out inbox' : Bytes} {closed : Bool} {n : Nat}
    (h : o.Expects k me you opening (inbox ++ more))
    (hturn : o.turn md5 inflate me inbox closed n = some (o', out, inbox')) :
    Opener.Went k me you opening o o' inbox more out inbox' closed := by
  cases o with
  | connected o =>
    obtain ⟨rfl, hrest⟩ := h
    cases o with
    | none =>
      obtain ⟨hsend, hrecv, hhello, hreply⟩ := hk.plain rfl
      cases hturn
      have hcoming := coming_sealed .new hrecv.symm rfl (answerFrame you)
      rw [hreply, List.nil_append] at hrest
      rw [← Course.sealedAnswer, ← hrest] at hcoming
      refine ⟨⟨hsend.symm, hcoming⟩, fun _ => ?_, fun hgone => (by cases hgone), by
        simp only [Opener.rank]; omega⟩
      show [] ++ k.sealedHello me = k.hello ++ k.sealedHello me
      rw [hhello]
    | some o =>
      obtain ⟨ciphers, hsend, hreplies⟩ := hk.opens o rfl
      simp only [Opener.turn, hsend] at hturn
      cases hturn
      exact ⟨⟨⟨rfl, hreplies⟩, hrest⟩, fun _ => rfl, fun hgone => (by cases hgone), by
        simp only [Opener.rank]; omega⟩
  | obfuscating ciphers =>
    obtain ⟨⟨-, hreplies⟩, hrest⟩ := h
    rw [Opener.turn] at hturn
    rcases hreplies.take hrest with hio | ⟨ini, left, hread, hleft, hle, hsend, hrecv⟩
    · rw [hio] at hturn
      obtain ⟨hclosed, hnext⟩ := short_closed rfl hturn
      cases hnext
      exact ⟨trivial, fun hgone => (by cases hgone), fun _ => ⟨rfl, hclosed⟩, by
        simp only [Opener.rank]; omega⟩
    · rw [hread] at hturn
      cases hturn
      have hcoming := coming_sealed (.obfuscated ini) hrecv rfl (answerFrame you)
      rw [← Course.sealedAnswer, ← hleft] at hcoming
      exact ⟨⟨hsend, hcoming⟩, fun _ => rfl, fun hgone => (by cases hgone), by
        simp only [Opener.rank]; omega⟩
  | ready fs =>
    obtain ⟨hsend, hcoming⟩ := h
    have heq : Opener.turn md5 inflate me inbox closed n (.ready fs) =
      some (.awaiting (fs.encrypt (helloFrame me)).2, (fs.encrypt (helloFrame me)).1, inbox) := rfl
    obtain ⟨rfl, rfl, rfl⟩ : _ = o' ∧ _ = out ∧ inbox = inbox' := by
      simpa only [Option.some.injEq, Prod.mk.injEq] using heq.symm.trans hturn
    refine ⟨⟨?_, hcoming.encrypt _⟩, fun _ => ?_, fun hgone => (by cases hgone), by
      simp only [Opener.rank]; omega⟩
    · rw [FramedStream.encrypt_send, hsend]
      rfl
    · rw [FramedStream.encrypt_fst, hsend]
      exact List.append_nil _
  | awaiting fs =>
    obtain ⟨hsend, hcoming⟩ := h
    obtain ⟨wait, hwait, hnext⟩ := Option.map_eq_some_iff.mp hturn
    have hplain : (buildHelloAnswer you).protocol ≠ PROT_PACKED := show PROT_EDONKEY ≠ _ by decide
    cases hcoming.await (framed_hello you).2 hplain hwait with
    | more hsend' hcoming' hlt =>
      cases hnext
      exact ⟨⟨hsend'.trans hsend, hcoming'⟩, fun _ => rfl, fun hgone => (by cases hgone), by
        simp only [Opener.rank]; omega⟩
    | whole hsend' hrecv' hbuf hinbox hmore =>
      simp only [Option.map, helloOfPacket_answer] at hnext
      cases hnext
      refine ⟨⟨⟨hsend'.trans hsend, hrecv', hbuf⟩, rfl, ?_⟩, fun _ => rfl,
        fun hgone => (by cases hgone), by simp only [Opener.rank]; omega⟩
      rw [hinbox, hmore, List.append_nil]
    | lost hclosed hinbox hmore =>
      cases hnext
      exact ⟨trivial, fun hgone => (by cases hgone), fun _ => ⟨rfl, hclosed⟩, by
        simp only [Opener.rank, hinbox]; omega⟩
  | met fs peer => cases hturn
  | failed e => cases hturn

/-! ## The accepter's turn -/

structure Accepter.Went (k : Course) (me you : HelloInfo) (a a' : Accepter)
    (inbox more out inbox' : Bytes) (closed : Bool) : Prop where
  expects : a'.Expects k me you (inbox' ++ more)
  owes : a'.gone = false → out ++ a'.owes k you = a.owes k you
  silent : a'.gone = true → out = [] ∧ closed = true
  less : a'.rank + inbox'.length < a.rank + inbox.length

/-- What an accepter makes of the first bytes, where enough of them are there. -/
theorem Course.Leads.accept (hk : k.Leads md5 me you opening) {inbox more : Bytes}
    (hrest : inbox ++ more = k.hello ++ k.sealedHello me) :
    obfAccept md5 you.userHash (chunksOf inbox) = .error .io ∨ ∃ detected left,
      obfAccept md5 you.userHash (chunksOf inbox) = .ok (detected, k.reply, left) ∧
        left.flatten.length ≤ inbox.length ∧ detected.framed.send = k.toOpener ∧
        Coming detected.framed (left.flatten ++ more) (helloFrame me) (k.afterHello me) := by
  have hwhole := cuts_chunksOf (inbox ++ more)
  have hsteady := steady_obfAccept md5 you.userHash
  obtain ⟨detected, left', rest, haccept, hleft', hsend, hcoming⟩ :=
    hk.accepts ⟨hwhole.flatten.trans hrest, hwhole.ne⟩
  have hmap' := congrArg (Except.map apart) haccept
  cases hread : obfAccept md5 you.userHash (chunksOf inbox) with
  | error e =>
    have hmap := congrArg (Except.map apart) hread
    rcases hsteady.error (cuts_chunksOf inbox) hwhole hmap with hio | hbad
    · exact .inl (congrArg Except.error hio)
    · cases hbad.symm.trans hmap'
  | ok read =>
    obtain ⟨detected', reply, left⟩ := read
    have hmap := congrArg (Except.map apart) hread
    obtain ⟨left'', r, htake, hsuffix, hr, hr'⟩ :=
      hsteady.ok (cuts_chunksOf inbox) hwhole hmap
    cases hmap'.symm.trans htake
    rw [← hleft'.flatten, hr'.flatten] at hcoming
    refine .inr ⟨detected, left, rfl, ?_, hsend, ?_⟩
    · rw [hr.flatten]
      exact hsuffix.length_le
    · rw [hr.flatten]
      exact hcoming

theorem Accepter.Expects.turn (hk : k.Leads md5 me you opening) {a a' : Accepter}
    {inbox more out inbox' : Bytes} {closed : Bool} {n : Nat}
    (h : a.Expects k me you (inbox ++ more))
    (hturn : a.turn md5 inflate you inbox closed n = some (a', out, inbox')) :
    Accepter.Went k me you a a' inbox more out inbox' closed := by
  cases a with
  | accepted =>
    rw [Accepter.turn] at hturn
    rcases hk.accept h with hio | ⟨detected, left, hread, hle, hsend, hcoming⟩
    · rw [hio] at hturn
      obtain ⟨hclosed, hnext⟩ := short_closed rfl hturn
      cases hnext
      exact ⟨trivial, fun hgone => (by cases hgone), fun _ => ⟨rfl, hclosed⟩, by
        simp only [Accepter.rank]; omega⟩
    · rw [hread] at hturn
      cases hturn
      exact ⟨⟨hsend, hcoming⟩, fun _ => rfl, fun hgone => (by cases hgone), by
        simp only [Accepter.rank]; omega⟩
  | awaiting fs =>
    obtain ⟨hsend, hcoming⟩ := h
    obtain ⟨wait, hwait, hnext⟩ := Option.map_eq_some_iff.mp hturn
    have hplain : (buildHello me).protocol ≠ PROT_PACKED := show PROT_EDONKEY ≠ _ by decide
    cases hcoming.await (framed_hello me).1 hplain hwait with
    | more hsend' hcoming' hlt =>
      cases hnext
      exact ⟨⟨hsend'.trans hsend, hcoming'⟩, fun _ => rfl, fun hgone => (by cases hgone), by
        simp only [Accepter.rank]; omega⟩
    | whole hsend' hrecv' hbuf hinbox hmore =>
      simp only [Option.map, helloOfPacket_hello] at hnext
      cases hnext
      refine ⟨⟨⟨hsend'.trans hsend, hrecv', hbuf⟩, rfl, ?_⟩, fun _ => rfl,
        fun hgone => (by cases hgone), by simp only [Accepter.rank]; omega⟩
      rw [hinbox, hmore, List.append_nil]
    | lost hclosed hinbox hmore =>
      cases hnext
      exact ⟨trivial, fun hgone => (by cases hgone), fun _ => ⟨rfl, hclosed⟩, by
        simp only [Accepter.rank, hinbox]; omega⟩
  | answering fs peer =>
    obtain ⟨⟨hsend, hrecv, hbuf⟩, hpeer, hrest⟩ := h
    have heq : Accepter.turn md5 inflate you inbox closed n (.answering fs peer) =
      some (.met (fs.encrypt (answerFrame you)).2 peer, (fs.encrypt (answerFrame you)).1, inbox) :=
      rfl
    obtain ⟨rfl, rfl, rfl⟩ : _ = a' ∧ _ = out ∧ inbox = inbox' := by
      simpa only [Option.some.injEq, Prod.mk.injEq] using heq.symm.trans hturn
    refine ⟨⟨⟨?_, ?_, ?_⟩, hpeer, hrest⟩, fun _ => ?_, fun hgone => (by cases hgone), by
      simp only [Accepter.rank]; omega⟩
    · rw [FramedStream.encrypt_send, hsend]
      rfl
    · rw [FramedStream.encrypt_recv, hrecv]
    · rw [FramedStream.encrypt_buf, hbuf]
    · rw [FramedStream.encrypt_fst, hsend]
      exact List.append_nil _
  | met fs peer => cases hturn
  | failed e => cases hturn

/-! ## The two ends together -/

/-- What is in an inbox and what the other end still owes is what the end behind it expects; of an
    end that is gone some of it may be missing. -/
structure OnCourse (k : Course) (me you : HelloInfo) (opening : Option Obfuscation) (m : Meeting) :
    Prop where
  opener : ∃ more, m.opener.Expects k me you opening (m.toOpener ++ more) ∧
    (m.accepter.gone = false → more = m.accepter.owes k you)
  accepter : ∃ more, m.accepter.Expects k me you (m.toAccepter ++ more) ∧
    (m.opener.gone = false → more = m.opener.owes k me)
  blame : m.opener.gone = true ∨ m.accepter.gone = true →
    m.opener = .failed .gaveUp ∨ m.accepter = .failed .gaveUp

theorem OnCourse.start : OnCourse k me you opening (.start opening) where
  opener := ⟨_, ⟨rfl, rfl⟩, fun _ => rfl⟩
  accepter := ⟨_, rfl, fun _ => rfl⟩
  blame h := by rcases h with h | h <;> cases h

theorem Opener.here_of_turn {o : Opener} {inbox : Bytes} {closed : Bool} {n : Nat}
    {next : Opener × Bytes × Bytes} (h : o.turn md5 inflate me inbox closed n = some next) :
    o.gone = false := by
  cases o with
  | failed e => cases h
  | _ => rfl

theorem Accepter.here_of_turn {a : Accepter} {inbox : Bytes} {closed : Bool} {n : Nat}
    {next : Accepter × Bytes × Bytes} (h : a.turn md5 inflate you inbox closed n = some next) :
    a.gone = false := by
  cases a with
  | failed e => cases h
  | _ => rfl

theorem OnCourse.openerTurn (hk : k.Leads md5 me you opening) {m : Meeting} {o : Opener}
    {out inbox : Bytes} {n : Nat} (h : OnCourse k me you opening m)
    (hturn : m.opener.turn md5 inflate me m.toOpener m.accepter.gone n = some (o, out, inbox)) :
    OnCourse k me you opening ⟨o, m.accepter, m.toAccepter ++ out, inbox⟩ := by
  have hhere := Opener.here_of_turn hturn
  obtain ⟨more, hopener, howed⟩ := h.opener
  obtain ⟨more', haccepter, howed'⟩ := h.accepter
  have hwent := hopener.turn hk hturn
  refine ⟨⟨more, hwent.expects, howed⟩, ?_, fun hgone => ?_⟩
  · cases hgone : o.gone with
    | true => exact ⟨more', by rwa [(hwent.silent hgone).1, List.append_nil], fun h => (by cases h)⟩
    | false =>
      rw [howed' hhere, ← hwent.owes hgone, ← List.append_assoc] at haccepter
      exact ⟨_, haccepter, fun _ => rfl⟩
  · have hother : m.accepter.gone = true := by
      rcases hgone with hgone | hgone
      · exact (hwent.silent hgone).2
      · exact hgone
    rcases h.blame (.inr hother) with hgave | hgave
    · rw [hgave] at hhere
      cases hhere
    · exact .inr hgave

theorem OnCourse.accepterTurn (hk : k.Leads md5 me you opening) {m : Meeting} {a : Accepter}
    {out inbox : Bytes} {n : Nat} (h : OnCourse k me you opening m)
    (hturn : m.accepter.turn md5 inflate you m.toAccepter m.opener.gone n = some (a, out, inbox)) :
    OnCourse k me you opening ⟨m.opener, a, inbox, m.toOpener ++ out⟩ := by
  have hhere := Accepter.here_of_turn hturn
  obtain ⟨more, hopener, howed⟩ := h.opener
  obtain ⟨more', haccepter, howed'⟩ := h.accepter
  have hwent := haccepter.turn hk hturn
  refine ⟨?_, ⟨more', hwent.expects, howed'⟩, fun hgone => ?_⟩
  · cases hgone : a.gone with
    | true => exact ⟨more, by rwa [(hwent.silent hgone).1, List.append_nil], fun h => (by cases h)⟩
    | false =>
      rw [howed hhere, ← hwent.owes hgone, ← List.append_assoc] at hopener
      exact ⟨_, hopener, fun _ => rfl⟩
  · have hother : m.opener.gone = true := by
      rcases hgone with hgone | hgone
      · exact hgone
      · exact (hwent.silent hgone).2
    rcases h.blame (.inl hother) with hgave | hgave
    · exact .inl hgave
    · rw [hgave] at hhere
      cases hhere

theorem OnCourse.step (hk : k.Leads md5 me you opening) {m m' : Meeting} {op : MeetingOp}
    (h : OnCourse k me you opening m) (hstep : m.step md5 inflate me you op = some m') :
    OnCourse k me you opening m' := by
  cases op with
  | opener n =>
    obtain ⟨next, hturn, rfl⟩ := Option.map_eq_some_iff.mp hstep
    exact h.openerTurn hk hturn
  | accepter n =>
    obtain ⟨next, hturn, rfl⟩ := Option.map_eq_some_iff.mp hstep
    exact h.accepterTurn hk hturn
  | openerLeaves kept =>
    rw [Meeting.step] at hstep
    split_ifs at hstep with hgone
    obtain rfl := Option.some.inj hstep
    obtain ⟨more, haccepter, -⟩ := h.accepter
    rw [← List.take_append_drop kept m.toAccepter, List.append_assoc] at haccepter
    exact ⟨⟨_, trivial, fun _ => rfl⟩, ⟨_, haccepter, fun hhere => (by cases hhere)⟩,
      fun _ => .inl rfl⟩
  | accepterLeaves kept =>
    rw [Meeting.step] at hstep
    split_ifs at hstep with hgone
    obtain rfl := Option.some.inj hstep
    obtain ⟨more, hopener, -⟩ := h.opener
    rw [← List.take_append_drop kept m.toOpener, List.append_assoc] at hopener
    exact ⟨⟨_, hopener, fun hhere => (by cases hhere)⟩, ⟨_, trivial, fun _ => rfl⟩,
      fun _ => .inr rfl⟩

/-! ## Two ends that stay -/

/-- Nobody has given up or failed. -/
def Meeting.Staying (m : Meeting) : Prop := m.opener.gone = false ∧ m.accepter.gone = false

/-- The waits and bytes that are left. -/
def Meeting.left (k : Course) (me you : HelloInfo) (m : Meeting) : Nat :=
  m.opener.rank + m.toOpener.length + (m.opener.owes k me).length +
    (m.accepter.rank + m.toAccepter.length + (m.accepter.owes k you).length)

theorem OnCourse.descends (hk : k.Leads md5 me you opening) {m m' : Meeting} {op : MeetingOp}
    (h : OnCourse k me you opening m) (hstay : m.Staying) (hop : op.leaves = false)
    (hstep : m.step md5 inflate me you op = some m') :
    m'.Staying ∧ m'.left k me you < m.left k me you := by
  obtain ⟨hopen, haccept⟩ := hstay
  obtain ⟨more, hopener, howed⟩ := h.opener
  obtain ⟨more', haccepter, howed'⟩ := h.accepter
  cases op with
  | opener n =>
    obtain ⟨⟨o, out, inbox⟩, hturn, rfl⟩ := Option.map_eq_some_iff.mp hstep
    have hwent := hopener.turn hk hturn
    have hgone : o.gone = false := by
      rw [← Bool.not_eq_true]
      exact fun hgone => absurd (hwent.silent hgone).2 (by rw [haccept]; decide)
    have howes := congrArg List.length (hwent.owes hgone)
    have hless := hwent.less
    rw [List.length_append] at howes
    refine ⟨⟨hgone, haccept⟩, ?_⟩
    simp only [Meeting.left, List.length_append]
    omega
  | accepter n =>
    obtain ⟨⟨a, out, inbox⟩, hturn, rfl⟩ := Option.map_eq_some_iff.mp hstep
    have hwent := haccepter.turn hk hturn
    have hgone : a.gone = false := by
      rw [← Bool.not_eq_true]
      exact fun hgone => absurd (hwent.silent hgone).2 (by rw [hopen]; decide)
    have howes := congrArg List.length (hwent.owes hgone)
    have hless := hwent.less
    rw [List.length_append] at howes
    refine ⟨⟨hopen, hgone⟩, ?_⟩
    simp only [Meeting.left, List.length_append]
    omega
  | openerLeaves kept => cases hop
  | accepterLeaves kept => cases hop

/-- Both are through, with each other's HELLO and the ciphers of both directions in step. -/
def Meeting.Through (me you : HelloInfo) (m : Meeting) : Prop :=
  ∃ fs fs', m = ⟨.met fs you.parsed, .met fs' me.parsed, [], []⟩ ∧ fs.buf = [] ∧ fs'.buf = [] ∧
    fs.send = fs'.recv ∧ fs.recv = fs'.send

/-- One of the two can go on. -/
def Meeting.GoesOn (md5 : Bytes → Bytes) (inflate : Bytes → Nat → Option Bytes) (me you : HelloInfo)
    (m : Meeting) : Prop :=
  ∃ op m', op.leaves = false ∧ m.step md5 inflate me you op = some m'

theorem Meeting.goesOn_opener {m : Meeting} {n : Nat} {next : Opener × Bytes × Bytes}
    (h : m.opener.turn md5 inflate me m.toOpener m.accepter.gone n = some next) :
    m.GoesOn md5 inflate me you :=
  ⟨.opener n, _, rfl, Option.map_eq_some_iff.mpr ⟨next, h, rfl⟩⟩

theorem Meeting.goesOn_accepter {m : Meeting} {n : Nat} {next : Accepter × Bytes × Bytes}
    (h : m.accepter.turn md5 inflate you m.toAccepter m.opener.gone n = some next) :
    m.GoesOn md5 inflate me you :=
  ⟨.accepter n, _, rfl, Option.map_eq_some_iff.mpr ⟨next, h, rfl⟩⟩

/-- Nobody is stuck who has all that he expects. -/
theorem Opener.Expects.goes_on {o : Opener} {inbox : Bytes} (h : o.Expects k me you opening inbox)
    (hhere : o.gone = false) (closed : Bool) :
    (∃ n next, o.turn md5 inflate me inbox closed n = some next) ∨ ∃ fs peer, o = .met fs peer := by
  cases o with
  | connected o =>
    cases o with
    | none => exact .inl ⟨0, _, rfl⟩
    | some o => exact .inl ⟨0, _, rfl⟩
  | obfuscating ciphers =>
    obtain ⟨⟨-, hreplies⟩, hrest⟩ := h
    have hwhole := cuts_chunksOf inbox
    obtain ⟨ini, left, hread, -⟩ := hreplies ⟨hwhole.flatten.trans hrest, hwhole.ne⟩
    exact .inl ⟨0, _, by rw [Opener.turn, hread]⟩
  | ready fs => exact .inl ⟨0, _, rfl⟩
  | awaiting fs =>
    obtain ⟨n, wait, hwait⟩ := h.2.goes_on (framed_hello you).2 closed
    exact .inl ⟨n, _, Option.map_eq_some_iff.mpr ⟨wait, hwait, rfl⟩⟩
  | met fs peer => exact .inr ⟨fs, peer, rfl⟩
  | failed e => cases hhere

theorem Accepter.Expects.goes_on (hk : k.Leads md5 me you opening) {a : Accepter} {inbox : Bytes}
    (h : a.Expects k me you inbox) (hhere : a.gone = false) (closed : Bool) :
    (∃ n next, a.turn md5 inflate you inbox closed n = some next) ∨
      ∃ fs peer, a = .met fs peer := by
  cases a with
  | accepted =>
    have hwhole := cuts_chunksOf inbox
    obtain ⟨detected, left, rest, hread, -⟩ := hk.accepts ⟨hwhole.flatten.trans h, hwhole.ne⟩
    exact .inl ⟨0, _, by rw [Accepter.turn, hread]⟩
  | awaiting fs =>
    obtain ⟨n, wait, hwait⟩ := h.2.goes_on (framed_hello me).1 closed
    exact .inl ⟨n, _, Option.map_eq_some_iff.mpr ⟨wait, hwait, rfl⟩⟩
  | answering fs peer => exact .inl ⟨0, _, rfl⟩
  | met fs peer => exact .inr ⟨fs, peer, rfl⟩
  | failed e => cases hhere

/-- While the opener waits for the reply, the accepter has the hello or the reply is there. -/
theorem OnCourse.goes_on_obfuscating (hk : k.Leads md5 me you opening) {ciphers : StreamCiphers}
    {a : Accepter} {toAccepter toOpener : Bytes}
    (h : OnCourse k me you opening ⟨.obfuscating ciphers, a, toAccepter, toOpener⟩)
    (hhere : a.gone = false) (hmet : ∀ fs peer, a ≠ .met fs peer) :
    Meeting.GoesOn md5 inflate me you ⟨.obfuscating ciphers, a, toAccepter, toOpener⟩ := by
  obtain ⟨more, ⟨⟨hsome, hreplies⟩, hopener⟩, howed⟩ := h.opener
  obtain ⟨more', haccepter, howed'⟩ := h.accepter
  obtain rfl := howed hhere
  obtain rfl := howed' rfl
  cases a with
  | accepted =>
    obtain rfl : toAccepter = k.hello := List.append_cancel_right haccepter
    obtain ⟨answer, hread⟩ := hk.hears hsome (cuts_chunksOf k.hello)
    have hturn : Accepter.turn md5 inflate you k.hello false 0 .accepted =
        some (.awaiting answer.1.framed, answer.2.1, answer.2.2.flatten) := by
      rw [Accepter.turn, hread]
    exact Meeting.goesOn_accepter hturn
  | awaiting fs =>
    obtain rfl : toOpener = k.reply := List.append_cancel_right hopener
    have hwhole := cuts_chunksOf k.reply
    obtain ⟨ini, left, hread, -⟩ :=
      hreplies ⟨hwhole.flatten.trans (List.append_nil _).symm, hwhole.ne⟩
    have hturn : Opener.turn md5 inflate me k.reply false 0 (.obfuscating ciphers) =
        some (.ready (.obfuscated ini), [], left.flatten) := by
      rw [Opener.turn, hread]
    exact Meeting.goesOn_opener hturn
  | answering fs peer => exact Meeting.goesOn_accepter (n := 0) rfl
  | met fs peer => exact absurd rfl (hmet fs peer)
  | failed e => cases hhere

/-- No two ends wait for each other. -/
theorem OnCourse.goes_on (hk : k.Leads md5 me you opening) {m : Meeting}
    (h : OnCourse k me you opening m) (hstay : m.Staying) :
    m.GoesOn md5 inflate me you ∨ m.Through me you := by
  obtain ⟨o, a, toAccepter, toOpener⟩ := m
  obtain ⟨hopen, haccept⟩ := hstay
  obtain ⟨more, hopener, howed⟩ := h.opener
  obtain ⟨more', haccepter, howed'⟩ := h.accepter
  obtain rfl := howed haccept
  obtain rfl := howed' hopen
  by_cases hmet : ∃ fs peer, a = .met fs peer
  · obtain ⟨fs', peer', rfl⟩ := hmet
    rw [show Accepter.owes k you (.met fs' peer') = [] from rfl, List.append_nil] at hopener
    rcases hopener.goes_on hopen false with ⟨n, next, hturn⟩ | ⟨fs, peer, rfl⟩
    · exact .inl (Meeting.goesOn_opener hturn)
    · obtain ⟨⟨hsend, hrecv, hbuf⟩, rfl, rfl⟩ := hopener
      obtain ⟨⟨hsend', hrecv', hbuf'⟩, rfl, hnil⟩ := haccepter
      obtain ⟨rfl, -⟩ := List.append_eq_nil_iff.mp hnil
      exact .inr ⟨fs, fs', rfl, hbuf, hbuf', hsend.trans hrecv'.symm, hrecv.trans hsend'.symm⟩
  · have hall : Opener.owes k me o = [] → Meeting.GoesOn md5 inflate me you
        ⟨o, a, toAccepter, toOpener⟩ := by
      intro howes
      rw [howes, List.append_nil] at haccepter
      rcases haccepter.goes_on hk haccept o.gone with ⟨n, next, hturn⟩ | hthrough
      · exact Meeting.goesOn_accepter hturn
      · exact absurd hthrough hmet
    cases o with
    | connected o =>
      cases o with
      | none => exact .inl (Meeting.goesOn_opener (n := 0) rfl)
      | some o => exact .inl (Meeting.goesOn_opener (n := 0) rfl)
    | obfuscating ciphers =>
      exact .inl (h.goes_on_obfuscating hk haccept fun fs peer heq => hmet ⟨fs, peer, heq⟩)
    | ready fs => exact .inl (Meeting.goesOn_opener (n := 0) rfl)
    | awaiting fs => exact .inl (hall rfl)
    | met fs peer => exact .inl (hall rfl)
    | failed e => cases hopen

/-- An end that is through has the other one's HELLO. -/
theorem OnCourse.peers {m : Meeting} (h : OnCourse k me you opening m) :
    (∀ peer, m.opener.peer = some peer → peer = you.parsed) ∧
      (∀ peer, m.accepter.peer = some peer → peer = me.parsed) := by
  obtain ⟨more, hopener, -⟩ := h.opener
  obtain ⟨more', haccepter, -⟩ := h.accepter
  refine ⟨fun peer hpeer => ?_, fun peer hpeer => ?_⟩
  · cases hend : m.opener with
    | met fs peer' =>
      rw [hend] at hopener hpeer
      exact Option.some.inj hpeer ▸ hopener.2.1
    | _ => rw [hend] at hpeer; cases hpeer
  · cases hend : m.accepter with
    | met fs peer' =>
      rw [hend] at haccepter hpeer
      exact Option.some.inj hpeer ▸ haccepter.2.1
    | _ => rw [hend] at hpeer; cases hpeer

end

def sampleOpener : HelloInfo := .baseline (Digest.fill 16 0x33) 0 4662 4672 "a".toList

def sampleAccepter : HelloInfo :=
  (HelloInfo.baseline (Digest.fill 16 0x44) 0 4663 4673 "b".toList).setIncognito true

/-- Both go on until they are through, and the accepter's HELLO is read in two chunks. -/
def sampleTurns : List MeetingOp :=
  [.opener 0, .opener 0, .accepter 0, .accepter 100, .accepter 7, .accepter 0, .accepter 0,
    .opener 93, .opener 0]

/-- Two clients that say HELLO to each other meet. The opener obfuscates with the accepter's hash
    or not at all. In every order of the steps, whatever the reads take and whatever is lost when
    one gives up, an end that is through has parsed the other one's HELLO, and no end fails before
    one has given up. There is a bound on the steps of two ends that stay, and until both are
    through, with empty buffers and their ciphers in step, one of them can go on. -/
theorem peers_meet (md5 : Bytes → Bytes) (inflate : Bytes → Nat → Option Bytes)
    (me you : HelloInfo) {opening : Option Obfuscation}
    (hkey : ∀ o, opening = some o → o.targetHash = you.userHash) :
    (∀ ops m, run (Meeting.step md5 inflate me you) (.start opening) ops = some m →
      (∀ peer, m.opener.peer = some peer → peer = you.parsed) ∧
      (∀ peer, m.accepter.peer = some peer → peer = me.parsed) ∧
      (m.opener.gone = true ∨ m.accepter.gone = true →
        m.opener = .failed .gaveUp ∨ m.accepter = .failed .gaveUp)) ∧
    ∃ bound, ∀ ops m, run (Meeting.step md5 inflate me you) (.start opening) ops = some m →
      (∀ op ∈ ops, op.leaves = false) →
        ops.length ≤ bound ∧ (m.GoesOn md5 inflate me you ∨ m.Through me you) := by
  obtain ⟨k, hk⟩ := exists_course md5 me you hkey
  refine ⟨fun ops m hrun => ?_, (Meeting.start opening).left k me you, fun ops m hrun hstay => ?_⟩
  · have honCourse : OnCourse k me you opening m :=
      run_induct (fun _ _ _ h hstep => h.step hk hstep) .start hrun
    exact ⟨honCourse.peers.1, honCourse.peers.2, honCourse.blame⟩
  · have hstep : ∀ m op m', OnCourse k me you opening m ∧ m.Staying → op.leaves = false →
        m.step md5 inflate me you op = some m' →
        (OnCourse k me you opening m' ∧ m'.Staying) ∧ m'.left k me you < m.left k me you := by
      intro m op m' hinv hop hstep
      obtain ⟨hstaying, hlt⟩ := hinv.1.descends hk hinv.2 hop hstep
      exact ⟨⟨hinv.1.step hk hstep, hstaying⟩, hlt⟩
    obtain ⟨⟨honCourse, hstaying⟩, hle⟩ := run_descends hstep ⟨.start, rfl, rfl⟩ hstay hrun
    exact ⟨Nat.le_of_add_right_le hle, honCourse.goes_on hk hstaying⟩

/-- In plaintext, to an accepter in incognito. -/
theorem peers_meet_sample : ∃ m,
    run (Meeting.step (fun _ => []) (fun _ _ => none) sampleOpener sampleAccepter) (.start none)
      sampleTurns = some m ∧
    m.opener.peer = some sampleAccepter.parsed ∧ m.accepter.peer = some sampleOpener.parsed := by
  have hthrough : ((run (Meeting.step (fun _ => []) (fun _ _ => none) sampleOpener sampleAccepter)
      (.start none) sampleTurns).any fun m => m.opener.peer.isSome && m.accepter.peer.isSome) =
        true := by
    decide +kernel
  obtain ⟨m, hrun, hboth⟩ := (Option.any_eq_true _ _).mp hthrough
  obtain ⟨hopener, haccepter⟩ := Bool.and_eq_true_iff.mp hboth
  obtain ⟨you, hyou⟩ := Option.isSome_iff_exists.mp hopener
  obtain ⟨me, hme⟩ := Option.isSome_iff_exists.mp haccepter
  obtain ⟨hfrom, hfrom', -⟩ := (@peers_meet (fun _ => []) (fun _ _ => none) sampleOpener
    sampleAccepter none fun o ho => (by cases ho)).1 sampleTurns m hrun
  exact ⟨m, hrun, hyou.trans (congrArg some (hfrom you hyou)),
    hme.trans (congrArg some (hfrom' me hme))⟩

end PadMule.Engine.Peer
