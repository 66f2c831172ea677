import PadMule.Engine.SecureIdent

/-
  `mule-engine/src/secure_ident.rs`: one session fed with arbitrary packets.

  A session verifies one signature at most and keeps a key that is on file. A key that came
  over the wire is another matter: OP_PUBLICKEY replaces it at any time, so after the
  verification `peer_pubkey()` may return a key nothing was verified under. `KeepsKey` is what
  excludes that.
-/

namespace PadMule.Engine

open PadMule.Proto Readers

variable {κ : Type} (R : Rsa κ)

/-! ## A hostile peer -/

/-- A session and the verifications it has made. -/
structure Fed where
  session : SecureIdentSession
  checks : List (Bytes × Bytes)

namespace Fed

/-- Any opcode, any bytes; what does not parse changes nothing. -/
def feed (id : κ) (f : Fed) (pkt : UInt8 × Bytes) : Option Fed :=
  match f.session.onPacket R id pkt.1 pkt.2 with
  | .ok r => some ⟨r.session, f.checks ++ r.checks⟩
  | .error _ => some f

def start (id : κ) (challenge : UInt32) (stored : Option Bytes) : Fed :=
  ⟨(SecureIdentSession.withChallenge R id challenge).withStoredKey stored, []⟩

/-- The key at hand is one a signature over our key and challenge was verified under. -/
def KeyProved (f : Fed) : Prop :=
  f.session.peerVerified = true →
    ∃ sig, (f.session.peerPubkeyBytes, sig) ∈ f.checks ∧
      verifyV1 R f.session.peerPubkeyBytes f.session.ourPubkey f.session.ourChallenge sig = true

/-- No other key is sent once the peer has verified, unless its key is on file. -/
def KeepsKey (f : Fed) (pkt : UInt8 × Bytes) : Prop :=
  f.session.peerVerified = true → f.session.keyIsOnFile = false → pkt.1 = OP_PUBLICKEY →
    ∀ key, parsePublicKey pkt.2 = .ok key → key = f.session.peerPubkeyBytes

/-- What every packet leaves as it is. -/
structure Same (s t : SecureIdentSession) : Prop where
  ourPubkey : t.ourPubkey = s.ourPubkey
  ourChallenge : t.ourChallenge = s.ourChallenge
  peerPubkey : t.peerPubkey = s.peerPubkey
  keyIsOnFile : t.keyIsOnFile = s.keyIsOnFile
  peerVerified : t.peerVerified = s.peerVerified
  verifyAttempted : t.verifyAttempted = s.verifyAttempted

theorem same_trySign (id : κ) (s : SecureIdentSession) : Same s (s.trySign R id).2 := by
  unfold SecureIdentSession.trySign
  split_ifs
  · exact ⟨rfl, rfl, rfl, rfl, rfl, rfl⟩
  · cases hkey : s.peerPubkey <;> exact ⟨rfl, rfl, by simp [hkey], rfl, rfl, rfl⟩

/-- Everything a packet can do. -/
inductive Step (f : Fed) (pkt : UInt8 × Bytes) : Fed → Prop where
  | quiet {t : SecureIdentSession} (hkeeps : f.KeepsKey pkt) (hsame : Same f.session t) :
    Step f pkt ⟨t, f.checks⟩
  | key {key : Bytes} {t : SecureIdentSession} (hop : pkt.1 = OP_PUBLICKEY)
      (hparse : parsePublicKey pkt.2 = .ok key) (hfile : f.session.keyIsOnFile = false)
      (hsame : Same { f.session with peerPubkey := some key } t) : Step f pkt ⟨t, f.checks⟩
  | attempt {key : Bytes} {t : SecureIdentSession} (sig : Bytes) (hop : pkt.1 = OP_SIGNATURE)
      (hkey : f.session.peerPubkey = some key) (hfirst : f.session.verifyAttempted = false)
      (hsame : Same { f.session with
        verifyAttempted := true
        peerVerified := verifyV1 R key f.session.ourPubkey f.session.ourChallenge sig } t) :
    Step f pkt ⟨t, f.checks ++ [(key, sig)]⟩
  | spent {t : SecureIdentSession} (hop : pkt.1 = OP_SIGNATURE)
      (hunproved : f.session.peerVerified = false)
      (hsame : Same { f.session with verifyAttempted := true } t) : Step f pkt ⟨t, f.checks⟩

theorem keepsKey_of_opcode {f : Fed} {pkt : UInt8 × Bytes} (h : pkt.1 ≠ OP_PUBLICKEY) :
    f.KeepsKey pkt :=
  fun _ _ hop => absurd hop h

theorem step_of_signature (f : Fed) {pkt : UInt8 × Bytes} (hop : pkt.1 = OP_SIGNATURE)
    (sig : Bytes) :
    Step R f pkt ⟨(f.session.onSignature R sig).session,
      f.checks ++ (f.session.onSignature R sig).checks⟩ := by
  have hsame : Step R f pkt ⟨f.session, f.checks⟩ :=
    .quiet (keepsKey_of_opcode (by rw [hop]; decide)) ⟨rfl, rfl, rfl, rfl, rfl, rfl⟩
  unfold SecureIdentSession.onSignature SecureIdentSession.tryVerify
  split_ifs with hdone
  · simpa using hsame
  · simp only [Bool.or_eq_true, not_or, Bool.not_eq_true] at hdone
    split
    · rename_i key hkey
      simp only
      split_ifs
      · simpa using Step.spent (R := R) hop hdone.1 ⟨rfl, rfl, rfl, rfl, rfl, rfl⟩
      · exact .attempt sig hop hkey hdone.2 ⟨rfl, rfl, rfl, rfl, rfl, rfl⟩
    · simpa using hsame

theorem same_onState (id : κ) (s : SecureIdentSession) (state : UInt8) (challenge : UInt32) :
    Same s (s.onState R id state challenge).session ∧
      (s.onState R id state challenge).checks = [] := by
  simp only [SecureIdentSession.onState]
  split_ifs <;>
  · have h := same_trySign R id
    exact ⟨⟨(h _).1, (h _).2, (h _).3, (h _).4, (h _).5, (h _).6⟩, rfl⟩

theorem step_cases {id : κ} {f f' : Fed} {pkt : UInt8 × Bytes} (h : feed R id f pkt = some f') :
    Step R f pkt f' := by
  have hsame : Same f.session f.session := ⟨rfl, rfl, rfl, rfl, rfl, rfl⟩
  unfold feed SecureIdentSession.onPacket at h
  split_ifs at h with hstate hkey hsig
  · have hkeeps : f.KeepsKey pkt := keepsKey_of_opcode (by rw [hstate]; decide)
    cases hparse : parseSecIdentState pkt.2 with
    | error e =>
      cases hparse ▸ h
      exact .quiet hkeeps hsame
    | ok p =>
      obtain ⟨hsame, hchecks⟩ := same_onState R id f.session p.1 p.2
      cases hparse ▸ h
      rw [hchecks, List.append_nil]
      exact .quiet hkeeps hsame
  · cases hparse : parsePublicKey pkt.2 with
    | error e =>
      cases hparse ▸ h
      exact .quiet (fun _ _ _ key hok => by rw [hparse] at hok; cases hok) hsame
    | ok key =>
      have hsign := same_trySign R id
        (if f.session.keyIsOnFile then f.session else { f.session with peerPubkey := some key })
      cases hparse ▸ h
      simp only [SecureIdentSession.onKey, List.append_nil]
      cases hfile : f.session.keyIsOnFile with
      | true =>
        refine .quiet (fun _ hnot => by rw [hfile] at hnot; cases hnot) ?_
        simpa [hfile] using hsign
      | false => exact .key hkey hparse hfile (by simpa [hfile] using hsign)
  · cases hparse : parseSignature pkt.2 with
    | error e =>
      cases hparse ▸ h
      exact .quiet (keepsKey_of_opcode hkey) hsame
    | ok sig =>
      cases hparse ▸ h
      exact step_of_signature R f hsig sig
  · cases h
    simpa using Step.quiet (R := R) (keepsKey_of_opcode hkey) hsame

/-- What every packet keeps, for a session with `stored` on file. -/
structure Ok (stored : Option Bytes) (f : Fed) : Prop where
  fresh : f.session.verifyAttempted = false → f.checks = [] ∧ f.session.peerVerified = false
  once : f.checks.length ≤ 1
  proved : f.session.peerVerified = true →
    f.session.verifyAttempted = true ∧ f.session.peerPubkey.isSome = true ∧
      ∃ key sig, f.checks = [(key, sig)] ∧
        verifyV1 R key f.session.ourPubkey f.session.ourChallenge sig = true
  onFile : ∀ key, stored = some key → key ≠ [] →
    f.session.keyIsOnFile = true ∧ f.session.peerPubkey = some key

theorem ok_start (id : κ) (challenge : UInt32) (stored : Option Bytes) :
    Ok R stored (start R id challenge stored) := by
  have hfresh : (start R id challenge stored).session.verifyAttempted = false ∧
      (start R id challenge stored).session.peerVerified = false := by
    unfold start SecureIdentSession.withStoredKey
    split <;> exact ⟨rfl, rfl⟩
  refine ⟨fun _ => ⟨rfl, hfresh.2⟩, Nat.zero_le _, fun hver => ?_, ?_⟩
  · rw [hfresh.2] at hver
    cases hver
  · rintro key rfl hne
    simp [start, SecureIdentSession.withStoredKey, Option.filter, hne]

theorem Ok.step {stored : Option Bytes} {id : κ} {f f' : Fed} {pkt : UInt8 × Bytes}
    (hok : Ok R stored f) (h : feed R id f pkt = some f') : Ok R stored f' := by
  cases step_cases R h with
  | quiet hkeeps hsame =>
    obtain ⟨h1, h2, h3, h4, h5, h6⟩ := hsame
    exact ⟨by simpa only [h5, h6] using hok.fresh, hok.once,
      by simpa only [h1, h2, h3, h5, h6] using hok.proved, by simpa only [h3, h4] using hok.onFile⟩
  | key hop hparse hfile hsame =>
    obtain ⟨h1, h2, h3, h4, h5, h6⟩ := hsame
    refine ⟨by simpa only [h5, h6] using hok.fresh, hok.once, ?_, ?_⟩
    · simp only [h1, h2, h3, h5, h6]
      intro hver
      obtain ⟨hatt, -, hkey⟩ := hok.proved hver
      exact ⟨hatt, rfl, hkey⟩
    · intro key hst hne
      rw [(hok.onFile key hst hne).1] at hfile
      cases hfile
  | attempt sig hop hkey hfirst hsame =>
    obtain ⟨h1, h2, h3, h4, h5, h6⟩ := hsame
    obtain ⟨hnil, -⟩ := hok.fresh hfirst
    refine ⟨by simp [h6], by simp [hnil], ?_, by simpa only [h3, h4] using hok.onFile⟩
    simp only [h1, h2, h3, h5, h6, hnil]
    exact fun hver => ⟨trivial, by simp [hkey], _, sig, rfl, hver⟩
  | spent hop hunproved hsame =>
    obtain ⟨h1, h2, h3, h4, h5, h6⟩ := hsame
    refine ⟨by simp [h6], hok.once, ?_, by simpa only [h3, h4] using hok.onFile⟩
    simp [h5, hunproved]

/-- The key at hand stays proved exactly when no other one replaces it. -/
theorem keyProved_step_iff {stored : Option Bytes} {id : κ} {f f' : Fed} {pkt : UInt8 × Bytes}
    (hok : Ok R stored f) (hproved : KeyProved R f) (h : feed R id f pkt = some f') :
    KeyProved R f' ↔ KeepsKey f pkt := by
  cases step_cases R h with
  | quiet hkeeps hsame =>
    obtain ⟨h1, h2, h3, h4, h5, h6⟩ := hsame
    refine iff_of_true ?_ hkeeps
    simpa only [KeyProved, SecureIdentSession.peerPubkeyBytes, h1, h2, h3, h5] using hproved
  | @key key t hop hparse hfile hsame =>
    obtain ⟨h1, h2, h3, h4, h5, h6⟩ := hsame
    have hbytes : t.peerPubkeyBytes = key := by rw [SecureIdentSession.peerPubkeyBytes, h3]; rfl
    simp only at h1 h2 h5
    cases hver : f.session.peerVerified with
    | false =>
      refine iff_of_true (fun hver' => ?_) fun hver' => ?_
      · rw [h5, hver] at hver'
        cases hver'
      · rw [hver] at hver'
        cases hver'
    | true =>
      obtain ⟨-, -, key₀, sig₀, hchecks, -⟩ := hok.proved hver
      obtain ⟨sig, hmem, hsig⟩ := hproved hver
      have hold : f.session.peerPubkeyBytes = key₀ := by
        rw [hchecks] at hmem
        exact congrArg Prod.fst (List.mem_singleton.mp hmem)
      constructor
      · intro hproved' _ _ _ key' hparse'
        obtain ⟨sig', hmem', -⟩ := hproved' (h5.trans hver)
        simp only [hchecks, hbytes, List.mem_singleton] at hmem'
        cases hparse.symm.trans hparse'
        exact (congrArg Prod.fst hmem').trans hold.symm
      · intro hkeeps _
        have hsame : key = f.session.peerPubkeyBytes := hkeeps hver hfile hop key hparse
        refine ⟨sig, ?_, ?_⟩
        · rw [hbytes, hsame]
          exact hmem
        · simp only [hbytes, hsame, h1, h2]
          exact hsig
  | @attempt key t sig hop hkey hfirst hsame =>
    obtain ⟨h1, h2, h3, h4, h5, h6⟩ := hsame
    have hbytes : t.peerPubkeyBytes = key := by
      rw [SecureIdentSession.peerPubkeyBytes, h3, hkey]
      rfl
    refine iff_of_true (fun hver => ⟨sig, ?_, ?_⟩) (keepsKey_of_opcode (by rw [hop]; decide))
    · rw [hbytes]
      exact List.mem_append_right _ (List.mem_singleton.mpr rfl)
    · simp only [hbytes, h1, h2]
      exact h5.symm.trans hver
  | spent hop hunproved hsame =>
    refine iff_of_true (fun hver => ?_) (keepsKey_of_opcode (by rw [hop]; decide))
    rw [hsame.peerVerified] at hver
    exact absurd (hunproved ▸ hver) (by decide)

theorem feed_isSome (id : κ) (f : Fed) (pkt : UInt8 × Bytes) : feed R id f pkt ≠ none := by
  unfold feed
  split <;> simp

/-- Fed with any packets a session verifies at most once and never replaces a key on file; and
    the key at hand stays the one that was verified exactly as long as no other key follows. -/
theorem hostile_packets (id : κ) (challenge : UInt32) (stored : Option Bytes)
    (pkts : List (UInt8 × Bytes)) :
    (∀ f, Runs.run (feed R id) (start R id challenge stored) pkts = some f →
      f.checks.length ≤ 1 ∧
        ∀ key, stored = some key → key ≠ [] → f.session.peerPubkey = some key) ∧
      (Runs.Always (feed R id) (KeyProved R) (start R id challenge stored) pkts ↔
        Runs.Throughout (feed R id) KeepsKey (start R id challenge stored) pkts) := by
  have hstart := ok_start R id challenge stored
  constructor
  · intro f hrun
    have hok := Runs.run_induct (fun _ _ _ hok h => Ok.step R hok h) hstart hrun
    exact ⟨hok.once, fun key hst hne => (hok.onFile key hst hne).2⟩
  · refine Runs.always_iff_throughout (fun _ _ _ hok h => Ok.step R hok h)
      (fun f pkt hnone => absurd hnone (feed_isSome R id f pkt))
      (fun _ _ _ hok hproved h => keyProved_step_iff R hok hproved h) hstart (fun hver => ?_) pkts
    rw [(hstart.fresh (by
      unfold start SecureIdentSession.withStoredKey
      split <;> rfl)).2] at hver
    cases hver

end Fed

/-- Mutual identification of two honest sessions, and what is left of it with a hostile peer. -/
theorem mutual_identification :
    (∀ a b : Party κ, a.challenge ≠ 0 → b.challenge ≠ 0 → ∀ (order : List Side) (p : End × End),
      Runs.run (deliver R a.id b.id) (a.opening R b) order = some p →
        ∀ e ∈ [p.1, p.2], e.rejected = 0 ∧
          e.sent.countP (·.opcode = OP_PUBLICKEY) ≤ 1 ∧
          e.sent.countP (·.opcode = OP_SIGNATURE) ≤ 1 ∧
          (p.1.inbox = [] → p.2.inbox = [] →
            e.session.isComplete = true ∧ e.session.peerVerified = true ∧
              e.sent.countP (·.opcode = OP_SIGNATURE) = 1)) ∧
      ∀ (id : κ) (challenge : UInt32) (stored : Option Bytes) (pkts : List (UInt8 × Bytes)),
        (∀ f, Runs.run (Fed.feed R id) (Fed.start R id challenge stored) pkts = some f →
          f.checks.length ≤ 1 ∧
            ∀ key, stored = some key → key ≠ [] → f.session.peerPubkey = some key) ∧
          (Runs.Always (Fed.feed R id) (Fed.KeyProved R) (Fed.start R id challenge stored) pkts ↔
            Runs.Throughout (Fed.feed R id) Fed.KeepsKey (Fed.start R id challenge stored) pkts) :=
  ⟨fun _ _ ha hb _ _ hrun => honest_sessions_complete R ha hb hrun,
    fun id challenge stored pkts => Fed.hostile_packets R id challenge stored pkts⟩

/-! ## An instance -/

def tagSign (id : UInt8) (msg : Bytes) : Bytes := (id :: msg ++ List.replicate 48 0).take 48

/-- A key is one byte, its public half the same, a signature the byte before the message. -/
def tagRsa : Rsa UInt8 where
  publicKeyDer id := [id]
  sign := tagSign
  verify der msg sig := der.head?.any fun id => der = [id] ∧ sig = tagSign id msg
  der_ne_nil _ := List.cons_ne_nil _ _
  length_der_le _ := by simp [MAX_PUBKEY_SIZE]
  length_sign _ _ := by
    simp only [tagSign, SIGNATURE_LEN, List.length_take, List.length_append, List.length_cons,
      List.length_replicate]
    omega
  verify_sign _ _ := by simp

/-- One side has the other's key on file, the packets cross. -/
theorem crossing_sessions_complete :
    ∃ p, Runs.run (deliver tagRsa 1 2) ((⟨1, 7, true⟩ : Party UInt8).opening tagRsa ⟨2, 9, false⟩)
        [.second, .first, .first, .second, .second, .first] = some p ∧
      p.1.session.isComplete = true ∧ p.2.session.isComplete = true := by
  have hmoves : (Runs.run (deliver tagRsa 1 2)
      ((⟨1, 7, true⟩ : Party UInt8).opening tagRsa ⟨2, 9, false⟩)
      [.second, .first, .first, .second, .second, .first]).map (fun p => (p.1.inbox, p.2.inbox)) =
      some ([], []) := by decide +kernel
  obtain ⟨p, hrun, hres⟩ := Option.map_eq_some_iff.mp hmoves
  have hboth := (mutual_identification tagRsa).1 ⟨1, 7, true⟩ ⟨2, 9, false⟩ (by decide)
    (by decide) _ p hrun
  have hempty := congrArg Prod.fst hres
  have hempty' := congrArg Prod.snd hres
  exact ⟨p, hrun, ((hboth p.1 (by simp)).2.2.2 hempty hempty').1,
    ((hboth p.2 (by simp)).2.2.2 hempty hempty').1⟩

/-- A second key after the verification takes the place of the verified one. -/
theorem verified_key_replaced :
    ∃ f, Runs.run (Fed.feed tagRsa 1) (Fed.start tagRsa 1 7 none)
        [(OP_PUBLICKEY, [1, 2]), (OP_SIGNATURE, 48 :: tagSign 2 [1, 7, 0, 0, 0]),
          (OP_PUBLICKEY, [1, 3])] = some f ∧
      f.session.peerVerified = true ∧ f.checks.map Prod.fst = [[2]] ∧
      f.session.peerPubkeyBytes = [3] ∧ ¬Fed.KeyProved tagRsa f := by
  have hmoves : (Runs.run (Fed.feed tagRsa 1) (Fed.start tagRsa 1 7 none)
      [(OP_PUBLICKEY, [1, 2]), (OP_SIGNATURE, 48 :: tagSign 2 [1, 7, 0, 0, 0]),
        (OP_PUBLICKEY, [1, 3])]).map (fun f =>
          (f.session.peerVerified, f.checks.map Prod.fst, f.session.peerPubkeyBytes)) =
      some (true, [[2]], [3]) := by decide +kernel
  obtain ⟨f, hrun, hres⟩ := Option.map_eq_some_iff.mp hmoves
  obtain ⟨hver, hres⟩ := Prod.mk.inj hres
  obtain ⟨hchecks, hkey⟩ := Prod.mk.inj hres
  refine ⟨f, hrun, hver, hchecks, hkey, fun hproved => ?_⟩
  obtain ⟨sig, hmem, -⟩ := hproved hver
  have hfst := List.mem_map_of_mem (f := Prod.fst) hmem
  rw [hchecks, hkey] at hfst
  exact absurd hfst (by simp)

end PadMule.Engine
