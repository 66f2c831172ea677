import PadMule.Engine.PeerSources
import PadMule.Engine.SearchTree
import PadMule.Engine.SearchResults

/-
  `mule-engine/src/link.rs` and `sources.rs`: requests to the server and their replies.

  A call writes its request and then reads until a packet with the opcode of the reply comes, or its
  time is over; a reply that comes later stays in the stream. Nothing but the opcode tells whose
  reply a packet is: the hash of a source reply is parsed and ignored. So a late reply is taken for
  the answer to a later request of its kind, unless `poll_incoming` has read it before
  (`replies_answer_their_call`). What goes to the event stream is left out.
-/

namespace PadMule.Engine.ServerRequests

open PadMule.Proto Readers SearchTree

def OP_GETSOURCES : UInt8 := 0x19
def OP_GETSOURCES_OBFU : UInt8 := 0x23
def OP_FOUNDSOURCES : UInt8 := 0x42
def OP_SEARCHREQUEST : UInt8 := 0x16
def OP_QUERY_MORE_RESULT : UInt8 := 0x21

/-- A user hash follows. -/
def FOUND_SOURCES_HAS_USERHASH : UInt8 := 0x80

/-! ## Packets -/

def isLargeFile (size : UInt64) : Bool := OLD_MAX_FILE_SIZE < size.toNat

/-- In front of a size of 64 bits stands a 0. -/
def buildGetSources (hash : Hash16) (size : UInt64) (obfuscated : Bool) : Packet :=
  ⟨PROT_EDONKEY, if obfuscated then OP_GETSOURCES_OBFU else OP_GETSOURCES,
    hash.bytes ++
      if isLargeFile size then writeU32 0 ++ writeU64 size else writeU32 size.toUInt32⟩

def buildSearchRequest (p : SearchParams) : Packet :=
  ⟨PROT_EDONKEY, OP_SEARCHREQUEST, writeSearchTree p⟩

def buildSearchMoreRequest : Packet := ⟨PROT_EDONKEY, OP_QUERY_MORE_RESULT, []⟩

def readFoundUserHash (crypt : UInt8) : Reader (Option Hash16) :=
  if crypt &&& FOUND_SOURCES_HAS_USERHASH ≠ 0 then do return some (← readHash16) else pure none

def readFoundSource (obfuscated : Bool) : Reader FoundSource := do
  let ip ← readU32
  let port ← readU16
  if obfuscated then
    let crypt ← readU8
    let userHash ← readFoundUserHash crypt
    return ⟨ip, port, some crypt, userHash⟩
  else return ⟨ip, port, none, none⟩

def readFoundSources (obfuscated : Bool) : Reader (Hash16 × List FoundSource) := do
  let hash ← readHash16
  let count ← readU8
  let out ← readMany (readFoundSource obfuscated) count.toNat
  return (hash, out)

def parseFoundSources (payload : Bytes) (obfuscated : Bool) :
    Except IoError (Hash16 × List FoundSource) :=
  (readFoundSources obfuscated payload).map Prod.fst

theorem take_of_readHash16 {s s' : Bytes} {hash : Hash16} (h : readHash16 s = .ok (hash, s')) :
    s.take 16 = hash.bytes := by
  unfold readHash16 at h
  split at h
  · cases h
    rfl
  · cases h

theorem take_of_parseFoundSources {payload : Bytes} {obfuscated : Bool} {hash : Hash16}
    {out : List FoundSource} (h : parseFoundSources payload obfuscated = .ok (hash, out)) :
    payload.take 16 = hash.bytes := by
  obtain ⟨rest, h⟩ := ok_map_fst h
  obtain ⟨hash', s₁, hhash, h⟩ := ok_bind h
  obtain ⟨count, s₂, -, h⟩ := ok_bind h
  obtain ⟨out', s₃, -, h⟩ := ok_bind h
  cases h
  exact take_of_readHash16 hhash

/-! ## What a call returns -/

inductive ServerSearchOutcome where
  | page (p : SearchResultPage)
  | noAnswer
  | malformed (bytes : Nat) (why : IoError)

/-- The end of `read_search_page`, on the packet that the request got. -/
def readSearchPage : Option Packet → ServerSearchOutcome
  | none => .noAnswer
  | some p =>
    match parseSearchResultPage p.payload with
    | .ok page => .page page
    | .error e => .malformed p.payload.length e

/-- The end of `get_sources`: the hash of the reply is dropped. -/
def getSourcesReturns : Option Packet → List FoundSource
  | none => []
  | some p => ((parseFoundSources p.payload false).toOption.map Prod.snd).getD []

inductive Call where
  | getSources (hash : Hash16) (size : UInt64)
  | searchPage (params : SearchParams)
  | searchMore
deriving DecidableEq

namespace Call

def packet : Call → Packet
  | getSources hash size => buildGetSources hash size false
  | searchPage params => buildSearchRequest params
  | searchMore => buildSearchMoreRequest

/-- The opcode that the call waits for. -/
def want : Call → UInt8
  | getSources _ _ => OP_FOUNDSOURCES
  | searchPage _ | searchMore => OP_SEARCHRESULT

end Call

/-! ## The link and the server -/

/-- A call of the link, by its number. -/
structure Request where
  number : Nat
  call : Call
deriving DecidableEq

/-- A packet of the server, and the request that it replies to. -/
structure Arrival where
  packet : Packet
  replyTo : Option Request
deriving DecidableEq

structure Session where
  /-- The requests so far. -/
  asked : Nat
  /-- The requests that the server may still reply to. -/
  unanswered : List Request
  /-- The packets of the server that are not read yet, the next one first. -/
  inFlight : List Arrival
  /-- The call that is reading. -/
  waiting : Option Request
  /-- The calls that are over, with the packet that each has got. -/
  returned : List (Request × Option Arrival)
deriving DecidableEq

/-- A reply has the opcode for its request, and that to a source request repeats its hash. -/
def Replies (request reply : Packet) : Prop :=
  if request.opcode = OP_GETSOURCES then
    reply.opcode = OP_FOUNDSOURCES ∧ reply.payload.take 16 = request.payload.take 16
  else reply.opcode = OP_SEARCHRESULT

instance (request reply : Packet) : Decidable (Replies request reply) :=
  inferInstanceAs (Decidable (if request.opcode = OP_GETSOURCES then _ ∧ _ else _ = _))

inductive Event where
  | call (c : Call)
  /-- The server replies to a request. -/
  | answer (q : Request) (p : Packet)
  /-- The server sends a packet of its own accord. -/
  | unsolicited (p : Packet)
  /-- The call that waits, or `poll_incoming`, reads the next packet. -/
  | read
  /-- The time of the call is over, a read fails, or the call is dropped. -/
  | giveUp
  /-- The link gets another socket, or is paused. -/
  | reconnect
deriving DecidableEq

namespace Session

def start : Session := ⟨0, [], [], none, []⟩

/-- One turn of the loop of a request, or of `poll_incoming`. -/
def readPacket (s : Session) : Option Session :=
  match s.inFlight, s.waiting with
  | [], _ => none
  | _ :: rest, none => some { s with inFlight := rest }
  | a :: rest, some q =>
    if a.packet.opcode = q.call.want then
      some { s with inFlight := rest, waiting := none, returned := s.returned ++ [(q, some a)] }
    else some { s with inFlight := rest }

def step (s : Session) : Event → Option Session
  | .call c =>
    if s.waiting = none then
      some { s with
        asked := s.asked + 1
        unanswered := s.unanswered ++ [⟨s.asked, c⟩]
        waiting := some ⟨s.asked, c⟩ }
    else none
  | .answer q p =>
    if q ∈ s.unanswered ∧ Replies q.call.packet p then
      some { s with
        unanswered := s.unanswered.erase q
        inFlight := s.inFlight ++ [⟨p, some q⟩] }
    else none
  | .unsolicited p => some { s with inFlight := s.inFlight ++ [⟨p, none⟩] }
  | .read => s.readPacket
  | .giveUp =>
    s.waiting.map fun q => { s with waiting := none, returned := s.returned ++ [(q, none)] }
  | .reconnect =>
    if s.waiting = none then some { s with unanswered := [], inFlight := [] } else none

end Session

/-! ## Answers to the question -/

/-- The packet names the source for the hash. -/
def NamedFor (hash : Hash16) (p : Packet) (src : FoundSource) : Prop :=
  ∃ out, parseFoundSources p.payload false = .ok (hash, out) ∧ src ∈ out

/-- The sources are for the hash of the request; a page is from the reply to it. -/
def Answers (q : Request) (a : Arrival) : Prop :=
  match q.call with
  | .getSources hash _ =>
    ∀ src ∈ getSourcesReturns (some a.packet), NamedFor hash a.packet src
  | .searchPage _ | .searchMore =>
    ∀ page, readSearchPage (some a.packet) = .page page → a.replyTo = some q

def Good (s : Session) : Prop := ∀ q a, (q, some a) ∈ s.returned → Answers q a

/-! ## Packets that cannot be mistaken -/

/-- The call does not take the packet, or it is about the hash of the call. -/
def Harmless (c : Call) (p : Packet) : Prop :=
  match c with
  | .getSources hash _ => p.opcode ≠ OP_FOUNDSOURCES ∨ p.payload.take 16 = hash.bytes
  | .searchPage _ | .searchMore => p.opcode ≠ OP_SEARCHRESULT

instance (c : Call) (p : Packet) : Decidable (Harmless c p) :=
  match c with
  | .getSources _ _ => inferInstanceAs (Decidable (_ ∨ _))
  | .searchPage _ | .searchMore => inferInstanceAs (Decidable (_ ≠ _))

/-- The replies to the one cannot be mistaken for replies to the other. -/
def Apart : Call → Call → Prop
  | .getSources hash _, .getSources hash' _ => hash = hash'
  | .getSources _ _, _ | _, .getSources _ _ => True
  | _, _ => False

instance : ∀ c d, Decidable (Apart c d)
  | .getSources hash _, .getSources hash' _ => inferInstanceAs (Decidable (hash = hash'))
  | .getSources _ _, .searchPage _ | .getSources _ _, .searchMore => .isTrue trivial
  | .searchPage _, .getSources _ _ | .searchMore, .getSources _ _ => .isTrue trivial
  | .searchPage _, .searchPage _ | .searchPage _, .searchMore => .isFalse id
  | .searchMore, .searchPage _ | .searchMore, .searchMore => .isFalse id

/-- Before a call, no reply of its kind is due or unread; during it, the server sends none of its
    own accord. -/
def Clean (s : Session) : Event → Prop
  | .call c => (∀ a ∈ s.inFlight, Harmless c a.packet) ∧ ∀ d ∈ s.unanswered, Apart c d.call
  | .unsolicited p => ∀ q ∈ s.waiting, Harmless q.call p
  | _ => True

instance (s : Session) : ∀ e, Decidable (Clean s e)
  | .call _ => inferInstanceAs (Decidable (_ ∧ _))
  | .unsolicited p => inferInstanceAs (Decidable (∀ q ∈ s.waiting, Harmless q.call p))
  | .answer _ _ | .read | .giveUp | .reconnect => .isTrue trivial

theorem opcode_of_replies {c : Call} {p : Packet} (h : Replies c.packet p) : p.opcode = c.want := by
  cases c with
  | getSources hash size => exact (show _ ∧ _ from h).1
  | searchPage params => exact h
  | searchMore => exact h

/-- A reply to a source request repeats its hash. -/
theorem hash_of_replies {hash : Hash16} {size : UInt64} {p : Packet}
    (h : Replies (Call.getSources hash size).packet p) : p.payload.take 16 = hash.bytes := by
  have hrepeats : p.payload.take 16 = (buildGetSources hash size false).payload.take 16 :=
    (show _ ∧ _ from h).2
  rw [hrepeats, buildGetSources, List.take_left' hash.len]

theorem opcodes_differ : OP_SEARCHRESULT ≠ OP_FOUNDSOURCES := by decide

theorem harmless_of_replies {c d : Call} {p : Packet} (h : Replies d.packet p)
    (hapart : Apart c d) : Harmless c p := by
  have hopcode := opcode_of_replies h
  cases c with
  | getSources hash size =>
    cases d with
    | getSources hash' size' =>
      obtain rfl : hash = hash' := hapart
      exact .inr (hash_of_replies h)
    | searchPage params => exact .inl fun heq => opcodes_differ (hopcode.symm.trans heq)
    | searchMore => exact .inl fun heq => opcodes_differ (hopcode.symm.trans heq)
  | searchPage params =>
    cases d with
    | getSources hash' size' => exact fun heq => opcodes_differ (heq.symm.trans hopcode)
    | searchPage params' => exact hapart.elim
    | searchMore => exact hapart.elim
  | searchMore =>
    cases d with
    | getSources hash' size' => exact fun heq => opcodes_differ (heq.symm.trans hopcode)
    | searchPage params' => exact hapart.elim
    | searchMore => exact hapart.elim

/-- What a call takes, if it is the reply to it or harmless, answers it. -/
theorem answers_of_taken {q : Request} {a : Arrival} (hopcode : a.packet.opcode = q.call.want)
    (hreplied : a.replyTo = some q → Replies q.call.packet a.packet)
    (h : a.replyTo = some q ∨ Harmless q.call a.packet) : Answers q a := by
  unfold Answers
  cases hcall : q.call with
  | getSources hash size =>
    rw [hcall] at hopcode hreplied h
    have hhash : a.packet.payload.take 16 = hash.bytes := by
      rcases h with hmine | hother | hsame
      · exact hash_of_replies (hreplied hmine)
      · exact absurd hopcode hother
      · exact hsame
    intro src hsrc
    unfold getSourcesReturns at hsrc
    cases hparse : parseFoundSources a.packet.payload false with
    | error e => simp [hparse, Except.toOption] at hsrc
    | ok found =>
      obtain ⟨hash', out⟩ := found
      have hmem : src ∈ out := by simpa [hparse, Except.toOption] using hsrc
      have hbytes := (take_of_parseFoundSources hparse).symm.trans hhash
      obtain rfl : hash' = hash := Digest.ext_bytes hbytes
      exact ⟨out, hparse, hmem⟩
  | searchPage params =>
    rw [hcall] at hopcode h
    exact fun _ _ => h.resolve_right fun hother => hother hopcode
  | searchMore =>
    rw [hcall] at hopcode h
    exact fun _ _ => h.resolve_right fun hother => hother hopcode

/-! ## Runs -/

/-- The replies are in kind, and what the call that reads can meet is its reply or harmless. -/
structure Sound (s : Session) : Prop where
  good : Good s
  replied : ∀ a ∈ s.inFlight, ∀ q, a.replyTo = some q → Replies q.call.packet a.packet
  arriving : ∀ q, s.waiting = some q → ∀ a ∈ s.inFlight,
    a.replyTo = some q ∨ Harmless q.call a.packet
  due : ∀ q, s.waiting = some q → ∀ d ∈ s.unanswered, d ≠ q → Apart q.call d.call

theorem Sound.start : Sound .start where
  good _ _ h := absurd h List.not_mem_nil
  replied _ h := absurd h List.not_mem_nil
  arriving _ h := nomatch h
  due _ h := nomatch h

variable {s s' : Session}

theorem Sound.call (h : Sound s) {c : Call} (hclean : Clean s (.call c))
    (hstep : s.step (.call c) = some s') : Sound s' := by
  obtain ⟨hidle, hs⟩ := Option.ite_none_right_eq_some.mp hstep
  cases hs
  refine ⟨h.good, h.replied, fun q hq a ha => ?_, fun q hq d hd hne => ?_⟩
  · cases hq
    exact .inr (hclean.1 a ha)
  · cases hq
    rcases List.mem_append.mp hd with hd | hd
    · exact hclean.2 d hd
    · exact absurd (List.mem_singleton.mp hd) hne

theorem Sound.answer (h : Sound s) {q : Request} {p : Packet}
    (hstep : s.step (.answer q p) = some s') : Sound s' := by
  obtain ⟨⟨hdue, hreplies⟩, hs⟩ := Option.ite_none_right_eq_some.mp hstep
  cases hs
  refine ⟨h.good, fun a ha => ?_, fun w hw a ha => ?_, fun w hw d hd => ?_⟩
  · rcases List.mem_append.mp ha with ha | ha
    · exact h.replied a ha
    · rintro q' hq'
      rw [List.mem_singleton.mp ha] at hq' ⊢
      cases hq'
      exact hreplies
  · rcases List.mem_append.mp ha with ha | ha
    · exact h.arriving w hw a ha
    · rw [List.mem_singleton.mp ha]
      by_cases hqw : q = w
      · exact .inl (congrArg some hqw)
      · exact .inr (harmless_of_replies hreplies (h.due w hw q hdue hqw))
  · exact h.due w hw d (List.mem_of_mem_erase hd)

theorem Sound.unsolicited (h : Sound s) {p : Packet} (hclean : Clean s (.unsolicited p))
    (hstep : s.step (.unsolicited p) = some s') : Sound s' := by
  cases hstep
  refine ⟨h.good, fun a ha => ?_, fun w hw a ha => ?_, h.due⟩
  · rcases List.mem_append.mp ha with ha | ha
    · exact h.replied a ha
    · rw [List.mem_singleton.mp ha]
      nofun
  · rcases List.mem_append.mp ha with ha | ha
    · exact h.arriving w hw a ha
    · rw [List.mem_singleton.mp ha]
      exact .inr (hclean w hw)

theorem Sound.read (h : Sound s) (hstep : s.readPacket = some s') : Sound s' := by
  unfold Session.readPacket at hstep
  split at hstep
  · cases hstep
  · rename_i a rest hflight hidle
    cases hstep
    have hmem {b : Arrival} (hb : b ∈ rest) : b ∈ s.inFlight := by simp [hflight, hb]
    exact ⟨h.good, fun b hb => h.replied b (hmem hb),
      fun q hq => absurd (hidle.symm.trans hq) nofun,
      fun q hq => absurd (hidle.symm.trans hq) nofun⟩
  · rename_i a rest q hflight hwaiting
    have hhead : a ∈ s.inFlight := by simp [hflight]
    have hmem {b : Arrival} (hb : b ∈ rest) : b ∈ s.inFlight := by simp [hflight, hb]
    split_ifs at hstep with hopcode
    · cases hstep
      refine ⟨fun q' a' ha' => ?_, fun b hb => h.replied b (hmem hb), nofun, nofun⟩
      rcases List.mem_append.mp ha' with ha' | ha'
      · exact h.good q' a' ha'
      · cases List.mem_singleton.mp ha'
        exact answers_of_taken hopcode (h.replied a hhead q) (h.arriving q hwaiting a hhead)
    · cases hstep
      exact ⟨h.good, fun b hb => h.replied b (hmem hb),
        fun q' hq' b hb => h.arriving q' hq' b (hmem hb), h.due⟩

theorem Sound.step (h : Sound s) {e : Event} (hclean : Clean s e) (hstep : s.step e = some s') :
    Sound s' := by
  cases e with
  | call c => exact h.call hclean hstep
  | answer q p => exact h.answer hstep
  | unsolicited p => exact h.unsolicited hclean hstep
  | read => exact h.read hstep
  | giveUp =>
    obtain ⟨q, hwaiting, hs⟩ := Option.map_eq_some_iff.mp hstep
    cases hs
    refine ⟨fun q' a ha => ?_, h.replied, nofun, nofun⟩
    rcases List.mem_append.mp ha with ha | ha
    · exact h.good q' a ha
    · cases List.mem_singleton.mp ha
  | reconnect =>
    obtain ⟨hidle, hs⟩ := Option.ite_none_right_eq_some.mp hstep
    cases hs
    exact ⟨h.good, fun a ha => absurd ha List.not_mem_nil,
      fun q hq => absurd (hidle.symm.trans hq) nofun,
      fun q hq => absurd (hidle.symm.trans hq) nofun⟩

/-- In every run in which no reply of its kind is due or unread when a call is made, and the server
    sends none of its own accord while one waits, every answer is to the question. -/
theorem replies_answer_their_call (events : List Event)
    (hclean : Runs.Throughout Session.step Clean .start events) :
    Runs.Always Session.step Good .start events :=
  Runs.always_of_throughout (fun _ _ _ h hok hstep => h.step hok hstep) (fun _ h => h.good)
    Sound.start hclean

def firstFile : Hash16 := Digest.fill 16 0x11

def secondFile : Hash16 := Digest.fill 16 0x22

/-- One source of the first file. -/
def foundFirst : Packet :=
  ⟨PROT_EDONKEY, OP_FOUNDSOURCES, firstFile.bytes ++ [1, 1, 2, 3, 4, 5, 6]⟩

/-- A request for the first file that is replied to in time, and one for a page. -/
theorem replies_answer_their_call_in_time :
    Runs.Always Session.step Good .start [.call (.getSources firstFile 5),
      .answer ⟨0, .getSources firstFile 5⟩ foundFirst, .read, .call .searchMore, .giveUp] :=
  replies_answer_their_call [.call (.getSources firstFile 5),
    .answer ⟨0, .getSources firstFile 5⟩ foundFirst, .read, .call .searchMore, .giveUp]
    (by decide)

/-- The first file's reply comes when the second file is asked for. -/
def lateReply : List Event :=
  [.call (.getSources firstFile 5), .giveUp, .call (.getSources secondFile 5),
    .answer ⟨0, .getSources firstFile 5⟩ foundFirst, .read]

/-- The source of the first file is returned for the second one. -/
theorem late_reply_is_taken : ¬ ∀ events, Runs.Always Session.step Good .start events := by
  intro h
  have hends : Runs.run Session.step .start lateReply =
      some ⟨2, [⟨1, .getSources secondFile 5⟩], [], none,
        [(⟨0, .getSources firstFile 5⟩, none), (⟨1, .getSources secondFile 5⟩,
          some ⟨foundFirst, some ⟨0, .getSources firstFile 5⟩⟩)]⟩ := by decide
  have hgood := (h lateReply).run hends ⟨1, .getSources secondFile 5⟩
    ⟨foundFirst, some ⟨0, .getSources firstFile 5⟩⟩ (by simp)
  have hreturned : (⟨0x04030201, 0x0605, none, none⟩ : FoundSource) ∈
      getSourcesReturns (some foundFirst) := by decide
  obtain ⟨out, hparse, -⟩ := hgood _ hreturned
  have hhash := take_of_parseFoundSources hparse
  exact absurd hhash (by decide)

end PadMule.Engine.ServerRequests
