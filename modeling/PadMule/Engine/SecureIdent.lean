import PadMule.Engine.TransferCodec
import PadMule.Lib.Runs

/-
  `mule-engine/src/secure_ident.rs`: mutual secure identification.

  RSA is a parameter: a key, its public half in DER, signing and verifying (SHA-1 and the
  padding are inside both). `onPacket` returns, beside the replies, the verifications it makes,
  as pairs of public key and signature.
  Of two honest sessions each sends its challenge, its key and its signature in this order, so
  how many of the other's three packets a session has seen is all there is to know about it:
  `Script.seen` is the session after that many, `Script.sent` what it has sent by then.
-/

namespace PadMule.Engine

open PadMule.Proto Readers

def OP_SIGNATURE : UInt8 := 0x86
def OP_PUBLICKEY : UInt8 := 0x85
def OP_SECIDENTSTATE : UInt8 := 0x87

def IS_ALLREQUESTSSENT : UInt8 := 0
def IS_SIGNATURENEEDED : UInt8 := 1
def IS_KEYANDSIGNEEDED : UInt8 := 2

/-- The public key blob never exceeds this on the wire. -/
def MAX_PUBKEY_SIZE : Nat := 80

/-- A v1 signature is exactly the modulus size. -/
def SIGNATURE_LEN : Nat := 48

/-- RSA-384 with PKCS#1 v1.5 over SHA-1, for private keys `κ`. -/
structure Rsa (κ : Type) where
  publicKeyDer : κ → Bytes
  sign : κ → Bytes → Bytes
  verify : Bytes → Bytes → Bytes → Bool
  der_ne_nil : ∀ id, publicKeyDer id ≠ []
  length_der_le : ∀ id, (publicKeyDer id).length ≤ MAX_PUBKEY_SIZE
  length_sign : ∀ id msg, (sign id msg).length = SIGNATURE_LEN
  verify_sign : ∀ id msg, verify (publicKeyDer id) msg (sign id msg) = true

variable {κ : Type} (R : Rsa κ)

/-- The bytes a v1 signature covers. -/
def signedMessage (publicKeyDer : Bytes) (challenge : UInt32) : Bytes :=
  publicKeyDer ++ writeU32 challenge

def signV1 (id : κ) (peerPublicKeyDer : Bytes) (challenge : UInt32) : Bytes :=
  R.sign id (signedMessage peerPublicKeyDer challenge)

theorem length_signV1 (id : κ) (peerPublicKeyDer : Bytes) (challenge : UInt32) :
    (signV1 R id peerPublicKeyDer challenge).length = SIGNATURE_LEN :=
  R.length_sign id _

def verifyV1 (peerPublicKeyDer ourPublicKeyDer : Bytes) (challengeWeIssued : UInt32) (sig : Bytes) :
    Bool :=
  R.verify peerPublicKeyDer (signedMessage ourPublicKeyDer challengeWeIssued) sig

/-! ## Packet codecs -/

def buildPublicKey (pubDer : Bytes) : Packet :=
  ⟨PROT_EMULE, OP_PUBLICKEY, writeU8 (.ofNat pubDer.length) ++ pubDer⟩

def readPublicKey : Reader Bytes := do
  let len ← readU8
  if len = 0 ∨ MAX_PUBKEY_SIZE < len.toNat then throw (.badTag len)
  readBytes len.toNat

def parsePublicKey (payload : Bytes) : Except IoError Bytes := parse readPublicKey payload

def buildSecIdentState (state : UInt8) (challenge : UInt32) : Packet :=
  ⟨PROT_EMULE, OP_SECIDENTSTATE, writeU8 state ++ writeU32 challenge⟩

def readSecIdentState : Reader (UInt8 × UInt32) := do
  let state ← readU8
  let challenge ← readU32
  return (state, challenge)

def parseSecIdentState (payload : Bytes) : Except IoError (UInt8 × UInt32) :=
  parse readSecIdentState payload

def buildSignature (sig : Bytes) : Packet :=
  ⟨PROT_EMULE, OP_SIGNATURE, writeU8 (.ofNat sig.length) ++ sig⟩

def readSignature : Reader Bytes := do
  let len ← readU8
  readBytes len.toNat

def parseSignature (payload : Bytes) : Except IoError Bytes := parse readSignature payload

/-! ## One session -/

structure SecureIdentSession where
  ourPubkey : Bytes
  /-- The challenge we issued. -/
  ourChallenge : UInt32
  /-- The challenge the peer issued; 0 = not yet received. -/
  peerChallenge : UInt32
  /-- What the peer still wants from us. -/
  peerWants : UInt8
  peerPubkey : Option Bytes
  /-- The peer's key came from the credit store. -/
  keyIsOnFile : Bool
  sentOurKey : Bool
  sentOurSig : Bool
  peerVerified : Bool
  verifyAttempted : Bool
deriving DecidableEq

/-- What a packet leads to: the replies, and the verifications made on the way. -/
structure Reaction where
  replies : List Packet
  checks : List (Bytes × Bytes)
  session : SecureIdentSession
deriving DecidableEq

namespace SecureIdentSession

def withChallenge (id : κ) (challenge : UInt32) : SecureIdentSession where
  ourPubkey := R.publicKeyDer id
  ourChallenge := challenge
  peerChallenge := 0
  peerWants := IS_ALLREQUESTSSENT
  peerPubkey := none
  keyIsOnFile := false
  sentOurKey := false
  sentOurSig := false
  peerVerified := false
  verifyAttempted := false

def withStoredKey (s : SecureIdentSession) (stored : Option Bytes) : SecureIdentSession :=
  match stored.filter (· ≠ []) with
  | some key => { s with peerPubkey := some key, keyIsOnFile := true }
  | none => s

def start (s : SecureIdentSession) : Packet := buildSecIdentState IS_KEYANDSIGNEEDED s.ourChallenge

def isComplete (s : SecureIdentSession) : Bool := s.sentOurSig && s.peerVerified

/-- `peer_pubkey()`: empty until the key is there. -/
def peerPubkeyBytes (s : SecureIdentSession) : Bytes := s.peerPubkey.getD []

/-- Sign `peer_pubkey || peer_challenge` if we now can, and have not already. -/
def trySign (id : κ) (s : SecureIdentSession) : List Packet × SecureIdentSession :=
  if s.sentOurSig || s.peerChallenge = 0 then ([], s)
  else
    match s.peerPubkey with
    | some key =>
      ([buildSignature (signV1 R id key s.peerChallenge)], { s with sentOurSig := true })
    | none => ([], s)

def tryVerify (s : SecureIdentSession) (sig : Bytes) : List (Bytes × Bytes) × SecureIdentSession :=
  if s.peerVerified || s.verifyAttempted then ([], s)
  else
    match s.peerPubkey with
    | some key =>
      let s := { s with verifyAttempted := true }
      if s.ourChallenge = 0 then ([], s)
      else
        ([(key, sig)], { s with peerVerified := verifyV1 R key s.ourPubkey s.ourChallenge sig })
    | none => ([], s)

def onState (id : κ) (s : SecureIdentSession) (state : UInt8) (challenge : UInt32) : Reaction :=
  let s := { s with peerChallenge := challenge, peerWants := state }
  if state = IS_KEYANDSIGNEEDED ∧ s.sentOurKey = false then
    let signed := trySign R id { s with sentOurKey := true }
    ⟨buildPublicKey s.ourPubkey :: signed.1, [], signed.2⟩
  else
    let signed := trySign R id s
    ⟨signed.1, [], signed.2⟩

/-- A key is taken only where none is on file. -/
def onKey (id : κ) (s : SecureIdentSession) (key : Bytes) : Reaction :=
  let signed := trySign R id (if s.keyIsOnFile then s else { s with peerPubkey := some key })
  ⟨signed.1, [], signed.2⟩

def onSignature (s : SecureIdentSession) (sig : Bytes) : Reaction :=
  let verified := tryVerify R s sig
  ⟨[], verified.1, verified.2⟩

/-- A packet that does not parse leaves the session as it was. -/
def onPacket (id : κ) (s : SecureIdentSession) (opcode : UInt8) (payload : Bytes) :
    Except IoError Reaction :=
  if opcode = OP_SECIDENTSTATE then
    (parseSecIdentState payload).map fun p => s.onState R id p.1 p.2
  else if opcode = OP_PUBLICKEY then (parsePublicKey payload).map (s.onKey R id)
  else if opcode = OP_SIGNATURE then (parseSignature payload).map (s.onSignature R)
  else .ok ⟨[], [], s⟩

theorem onPacket_state (id : κ) (s : SecureIdentSession) (payload : Bytes) :
    s.onPacket R id OP_SECIDENTSTATE payload =
      (parseSecIdentState payload).map fun p => s.onState R id p.1 p.2 := by
  rw [onPacket, if_pos rfl]

theorem onPacket_key (id : κ) (s : SecureIdentSession) (payload : Bytes) :
    s.onPacket R id OP_PUBLICKEY payload = (parsePublicKey payload).map (s.onKey R id) := by
  rw [onPacket, if_neg (by decide), if_pos rfl]

theorem onPacket_signature (id : κ) (s : SecureIdentSession) (payload : Bytes) :
    s.onPacket R id OP_SIGNATURE payload = (parseSignature payload).map (s.onSignature R) := by
  rw [onPacket, if_neg (by decide), if_neg (by decide), if_pos rfl]

end SecureIdentSession

/-! ## The codecs invert -/

theorem reads_publicKey {key : Bytes} (hne : key ≠ []) (hlen : key.length ≤ MAX_PUBKEY_SIZE) :
    Reads readPublicKey (writeU8 (.ofNat key.length) ++ key) key := by
  have hsize : key.length < 256 := Nat.lt_of_le_of_lt hlen (by decide)
  have hto : (UInt8.ofNat key.length).toNat = key.length := UInt8.toNat_ofNat_of_lt' hsize
  refine (reads_u8 _).bind ?_
  have hpos : ¬(UInt8.ofNat key.length = 0 ∨ MAX_PUBKEY_SIZE < (UInt8.ofNat key.length).toNat) := by
    rintro (hzero | hlong)
    · have := congrArg UInt8.toNat hzero
      rw [hto] at this
      exact hne (List.length_eq_zero_iff.mp this)
    · omega
  rw [if_neg hpos]
  exact reads_bytes key hto.symm

theorem parsePublicKey_build {key : Bytes} (hne : key ≠ []) (hlen : key.length ≤ MAX_PUBKEY_SIZE) :
    parsePublicKey (buildPublicKey key).payload = .ok key :=
  parse_of_reads (reads_publicKey hne hlen)

theorem parseSecIdentState_build (state : UInt8) (challenge : UInt32) :
    parseSecIdentState (buildSecIdentState state challenge).payload = .ok (state, challenge) :=
  parse_of_reads ((reads_u8 state).bind (reads_u32 challenge).bind_pure)

theorem parseSignature_build {sig : Bytes} (h : sig.length = SIGNATURE_LEN) :
    parseSignature (buildSignature sig).payload = .ok sig := by
  have hto : (UInt8.ofNat sig.length).toNat = sig.length :=
    UInt8.toNat_ofNat_of_lt' (h ▸ (by decide : SIGNATURE_LEN < 256))
  exact parse_of_reads ((reads_u8 _).bind (reads_bytes sig hto.symm))

/-! ## Two honest sessions -/

/-- One side: who it is, its challenge, and whether it has the other's key on file. -/
structure Party (κ : Type) where
  id : κ
  challenge : UInt32
  onFile : Bool

/-- What one side keeps and has sent, and what is on its way to it. -/
structure End where
  session : SecureIdentSession
  inbox : List Packet
  sent : List Packet
  rejected : Nat
deriving DecidableEq

namespace End

/-- `me` receives the first packet on its way, and answers. -/
def receive (id : κ) (me other : End) : Option (End × End) :=
  match me.inbox with
  | [] => none
  | pkt :: rest =>
    match me.session.onPacket R id pkt.opcode pkt.payload with
    | .ok r =>
      some ({ me with session := r.session, inbox := rest, sent := me.sent ++ r.replies },
        { other with inbox := other.inbox ++ r.replies })
    | .error _ => some ({ me with inbox := rest, rejected := me.rejected + 1 }, other)

end End

/-- Which side the next packet is delivered to. -/
inductive Side where
  | first
  | second
deriving DecidableEq

def deliver (a b : κ) (p : End × End) : Side → Option (End × End)
  | .first => p.1.receive R a p.2
  | .second => (p.2.receive R b p.1).map Prod.swap

namespace Party

def session (me other : Party κ) : SecureIdentSession :=
  (SecureIdentSession.withChallenge R me.id me.challenge).withStoredKey
    (if me.onFile then some (R.publicKeyDer other.id) else none)

/-- Both have sent their `start`. -/
def opening (a b : Party κ) : End × End :=
  (⟨a.session R b, [(b.session R a).start], [(a.session R b).start], 0⟩,
    ⟨b.session R a, [(a.session R b).start], [(b.session R a).start], 0⟩)

end Party

namespace Script

variable (me other : Party κ)

/-- What `me` sends in the whole exchange. -/
def packets : List Packet :=
  [buildSecIdentState IS_KEYANDSIGNEEDED me.challenge, buildPublicKey (R.publicKeyDer me.id),
    buildSignature (signV1 R me.id (R.publicKeyDer other.id) other.challenge)]

/-- How much of it is sent once `n` packets of the other side are in. -/
def sent (onFile : Bool) : Nat → Nat
  | 0 => 1
  | 1 => if onFile then 3 else 2
  | _ => 3

/-- The session of `me` once `n` packets of the other side are in. -/
def seen (n : Nat) : SecureIdentSession where
  ourPubkey := R.publicKeyDer me.id
  ourChallenge := me.challenge
  peerChallenge := if 1 ≤ n then other.challenge else 0
  peerWants := if 1 ≤ n then IS_KEYANDSIGNEEDED else IS_ALLREQUESTSSENT
  peerPubkey := if me.onFile = true ∨ 2 ≤ n then some (R.publicKeyDer other.id) else none
  keyIsOnFile := me.onFile
  sentOurKey := 1 ≤ n
  sentOurSig := 1 ≤ n ∧ (me.onFile = true ∨ 2 ≤ n)
  peerVerified := 3 ≤ n
  verifyAttempted := 3 ≤ n

/-- The side of `me` with `i` packets in, the other with `j`. -/
def sideAt (i j : Nat) : End :=
  ⟨seen R me other i, ((packets R other me).take (sent other.onFile j)).drop i,
    (packets R me other).take (sent me.onFile i), 0⟩

@[simp] theorem length_packets : (packets R me other).length = 3 := rfl

theorem sent_bounds (onFile : Bool) (n : Nat) :
    1 ≤ sent onFile n ∧ sent onFile n ≤ sent onFile (n + 1) ∧ sent onFile n ≤ 3 ∧
      (1 ≤ n → 2 ≤ sent onFile n) ∧ (2 ≤ n → sent onFile n = 3) := by
  match n, onFile with
  | 0, true | 0, false => decide
  | 1, true | 1, false => decide
  | n + 2, _ => simp [sent]

theorem seen_zero : seen R me other 0 = me.session R other := by
  unfold Party.session SecureIdentSession.withStoredKey
  cases hfile : me.onFile with
  | false => simp [seen, SecureIdentSession.withChallenge, hfile]
  | true =>
    have hkey : (some (R.publicKeyDer other.id)).filter (· ≠ []) =
        some (R.publicKeyDer other.id) := by
      simp [Option.filter, R.der_ne_nil]
    rw [if_pos rfl, hkey]
    simp [seen, SecureIdentSession.withChallenge, hfile]

theorem opening_eq (a b : Party κ) : a.opening R b = (sideAt R a b 0 0, sideAt R b a 0 0) := by
  unfold Party.opening
  rw [← seen_zero, ← seen_zero]
  rfl

theorem onState_seen (h : other.challenge ≠ 0) :
    (seen R me other 0).onState R me.id IS_KEYANDSIGNEEDED other.challenge =
      ⟨((packets R me other).take (sent me.onFile 1)).drop 1, [], seen R me other 1⟩ := by
  cases hfile : me.onFile <;>
    simp [SecureIdentSession.onState, SecureIdentSession.trySign, seen, sent, packets, hfile, h]

theorem onKey_seen (h : other.challenge ≠ 0) :
    (seen R me other 1).onKey R me.id (R.publicKeyDer other.id) =
      ⟨(packets R me other).drop (sent me.onFile 1), [], seen R me other 2⟩ := by
  cases hfile : me.onFile <;>
    simp [SecureIdentSession.onKey, SecureIdentSession.trySign, seen, sent, packets, hfile, h]

theorem onSignature_seen (h : me.challenge ≠ 0) :
    (seen R me other 2).onSignature R (signV1 R other.id (R.publicKeyDer me.id) me.challenge) =
      ⟨[], [(R.publicKeyDer other.id, signV1 R other.id (R.publicKeyDer me.id) me.challenge)],
        seen R me other 3⟩ := by
  have hverify : verifyV1 R (R.publicKeyDer other.id) (R.publicKeyDer me.id) me.challenge
      (signV1 R other.id (R.publicKeyDer me.id) me.challenge) = true := R.verify_sign _ _
  simp [SecureIdentSession.onSignature, SecureIdentSession.tryVerify, seen, h, hverify]

/-- Each packet of the other side, taken in turn, draws the next ones of ours. -/
theorem react (hme : me.challenge ≠ 0) (hother : other.challenge ≠ 0) {n : Nat} {pkt : Packet}
    (hpkt : (packets R other me)[n]? = some pkt) :
    ∃ checks, (seen R me other n).onPacket R me.id pkt.opcode pkt.payload =
      .ok ⟨((packets R me other).take (sent me.onFile (n + 1))).drop (sent me.onFile n), checks,
        seen R me other (n + 1)⟩ := by
  match n with
  | 0 =>
    cases Option.some.inj hpkt
    refine ⟨[], (SecureIdentSession.onPacket_state R me.id _ _).trans ?_⟩
    rw [parseSecIdentState_build]
    exact congrArg Except.ok (onState_seen R me other hother)
  | 1 =>
    cases Option.some.inj hpkt
    refine ⟨[], (SecureIdentSession.onPacket_key R me.id _ _).trans ?_⟩
    rw [parsePublicKey_build (R.der_ne_nil other.id) (R.length_der_le other.id)]
    exact congrArg Except.ok (onKey_seen R me other hother)
  | 2 =>
    cases Option.some.inj hpkt
    refine ⟨[(R.publicKeyDer other.id, signV1 R other.id (R.publicKeyDer me.id) me.challenge)],
      (SecureIdentSession.onPacket_signature R me.id _ _).trans ?_⟩
    rw [parseSignature_build (length_signV1 R other.id _ _)]
    exact congrArg Except.ok (onSignature_seen R me other hme)
  | n + 3 => simp [packets] at hpkt

theorem take_drop_append {l : List Packet} {k m n : Nat} (hk : k ≤ m) (hm : m ≤ n)
    (hn : n ≤ l.length) :
    (l.take m).drop k ++ (l.take n).drop m = (l.take n).drop k := by
  have hsplit : l.take n = l.take m ++ (l.take n).drop m := by
    conv_lhs => rw [← List.take_append_drop m (l.take n), List.take_take, min_eq_left hm]
  have hlen : k ≤ (l.take m).length := by
    rw [List.length_take]
    omega
  conv_rhs => rw [hsplit, List.drop_append_of_le_length hlen]

/-- One packet delivered to `me`: both sides are one further. -/
theorem receive_at {i j : Nat} (hme : me.challenge ≠ 0) (hother : other.challenge ≠ 0)
    (hj : j ≤ sent me.onFile i) {p : End × End}
    (h : (sideAt R me other i j).receive R me.id (sideAt R other me j i) = some p) :
    i + 1 ≤ sent other.onFile j ∧ p = (sideAt R me other (i + 1) j, sideAt R other me j (i + 1)) := by
  obtain ⟨-, hgrow, -⟩ := sent_bounds me.onFile i
  obtain ⟨-, -, hthree, -⟩ := sent_bounds other.onFile j
  cases hin : (sideAt R me other i j).inbox with
  | nil =>
    rw [End.receive, hin] at h
    cases h
  | cons pkt rest =>
    have hlt : i < sent other.onFile j := by
      have hlen := congrArg List.length hin
      simp only [sideAt, List.length_drop, List.length_take, length_packets, List.length_cons] at hlen
      omega
    have hdrop : ((packets R other me).take (sent other.onFile j)).drop i = pkt :: rest := hin
    have hpkt : (packets R other me)[i]? = some pkt := by
      have hhead := congrArg (·[0]?) hdrop
      simpa [List.getElem?_drop, List.getElem?_take_of_lt hlt] using hhead
    have hrest : ((packets R other me).take (sent other.onFile j)).drop (i + 1) = rest := by
      rw [← List.drop_drop, hdrop]
      rfl
    obtain ⟨checks, hreact⟩ := react R me other hme hother hpkt
    have hsession : (sideAt R me other i j).session = seen R me other i := rfl
    rw [End.receive, hin] at h
    simp only [hsession, hreact, Option.some.injEq] at h
    have hthree' := (sent_bounds me.onFile (i + 1)).2.2.1
    have hsent := take_drop_append (Nat.zero_le _) hgrow hthree' (l := packets R me other)
    have hway := take_drop_append hj hgrow hthree' (l := packets R me other)
    rw [List.drop_zero, List.drop_zero] at hsent
    refine ⟨hlt, h.symm.trans ?_⟩
    simp only [sideAt, hrest, hsent, hway]

/-- How far the exchange of two honest sides is. -/
def InStep (a b : Party κ) (p : End × End) : Prop :=
  ∃ i j, i ≤ sent b.onFile j ∧ j ≤ sent a.onFile i ∧ p = (sideAt R a b i j, sideAt R b a j i)

theorem InStep.step {a b : Party κ} (ha : a.challenge ≠ 0) (hb : b.challenge ≠ 0)
    {p q : End × End} (h : InStep R a b p) {side : Side}
    (hstep : deliver R a.id b.id p side = some q) : InStep R a b q := by
  obtain ⟨i, j, hi, hj, rfl⟩ := h
  cases side with
  | first =>
    obtain ⟨hlt, rfl⟩ := receive_at R a b ha hb hj hstep
    have hgrow := (sent_bounds a.onFile i).2.1
    exact ⟨i + 1, j, hlt, hj.trans hgrow, rfl⟩
  | second =>
    obtain ⟨r, hr, rfl⟩ := Option.map_eq_some_iff.mp hstep
    obtain ⟨hlt, rfl⟩ := receive_at R b a hb ha hi hr
    have hgrow := (sent_bounds b.onFile j).2.1
    exact ⟨i, j + 1, hi.trans hgrow, hlt, rfl⟩

/-- Nothing is under way any more: both have seen all three packets. -/
theorem done_of_empty {i j : Nat} (hi : i ≤ sent other.onFile j) (hj : j ≤ sent me.onFile i)
    (hempty : (sideAt R me other i j).inbox = []) (hempty' : (sideAt R other me j i).inbox = []) :
    i = 3 ∧ j = 3 := by
  have hlen := congrArg List.length hempty
  have hlen' := congrArg List.length hempty'
  have hsent := sent_bounds other.onFile j
  have hsent' := sent_bounds me.onFile i
  simp only [sideAt, List.length_drop, List.length_take, length_packets, List.length_nil] at hlen hlen'
  omega

end Script

/-- Two honest sessions, whatever the order of delivery: no packet is rejected, key and
    signature are sent at most once, and when nothing is under way both have identified each
    other. -/
theorem honest_sessions_complete {a b : Party κ} (ha : a.challenge ≠ 0) (hb : b.challenge ≠ 0)
    {order : List Side} {p : End × End}
    (hrun : Runs.run (deliver R a.id b.id) (a.opening R b) order = some p) :
    ∀ e ∈ [p.1, p.2], e.rejected = 0 ∧
      e.sent.countP (·.opcode = OP_PUBLICKEY) ≤ 1 ∧ e.sent.countP (·.opcode = OP_SIGNATURE) ≤ 1 ∧
      (p.1.inbox = [] → p.2.inbox = [] →
        e.session.isComplete = true ∧ e.session.peerVerified = true ∧
          e.sent.countP (·.opcode = OP_SIGNATURE) = 1) := by
  have hstart : Script.InStep R a b (a.opening R b) :=
    ⟨0, 0, Nat.zero_le _, Nat.zero_le _, Script.opening_eq R a b⟩
  obtain ⟨i, j, hi, hj, rfl⟩ :=
    Runs.run_induct (fun _ _ _ h hstep => h.step R ha hb hstep) hstart hrun
  have hcount (me other : Party κ) (n : Nat) (opcode : UInt8) :
      ((Script.packets R me other).take n).countP (·.opcode = opcode) ≤
        (Script.packets R me other).countP (·.opcode = opcode) :=
    (List.take_sublist _ _).countP_le
  intro e he
  simp only [List.mem_cons, List.not_mem_nil, or_false] at he
  rcases he with rfl | rfl
  · refine ⟨rfl, hcount a b _ OP_PUBLICKEY, hcount a b _ OP_SIGNATURE, fun hempty hempty' => ?_⟩
    obtain ⟨rfl, rfl⟩ := Script.done_of_empty R a b hi hj hempty hempty'
    exact ⟨by simp [SecureIdentSession.isComplete, Script.sideAt, Script.seen], rfl, rfl⟩
  · refine ⟨rfl, hcount b a _ OP_PUBLICKEY, hcount b a _ OP_SIGNATURE, fun hempty hempty' => ?_⟩
    obtain ⟨rfl, rfl⟩ := Script.done_of_empty R a b hi hj hempty hempty'
    exact ⟨by simp [SecureIdentSession.isComplete, Script.sideAt, Script.seen], rfl, rfl⟩

end PadMule.Engine
