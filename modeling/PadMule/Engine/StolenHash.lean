import PadMule.Engine.IdentityProof
import PadMule.Engine.ServeSec

/-
  `mule-engine/src/share.rs`, `credit_store.rs`, `engine.rs` and `multi_source.rs`: who earns
  the credit of a userhash.

  Any number of connections share one credit store. One that comes in loads the key on file
  when it opens, and its verified sink binds a key where there is none; one that goes out loads
  the key, and binds nothing. RSA is abstract: `owned` are the public keys whose private halves
  the peer of a connection holds, and a run is `Authentic` when only those check out.

  A connection opened while its userhash has no key goes on without one. If another connection
  binds a key meanwhile and the first one then proves a key of its own, it is verified, and the
  userhash has a key, which is all the score looks at. A run is `Timely` when this does not
  happen, and there a stolen userhash earns the floor (`stolen_userhash_floor`).
-/

namespace PadMule.Engine

open PadMule.Proto FileMap

variable {κ : Type} (R : Rsa κ) (id : κ) (ratio : UInt64 → UInt64 → Nat)

/-- An inbound connection that claims a userhash. -/
structure Inbound (κ : Type) where
  userhash : Hash16
  sec : Option (ServeSec κ)
  /-- The public keys whose private halves the peer holds. -/
  owned : List Bytes
deriving DecidableEq

structure CreditWorld (κ : Type) where
  store : CreditStore
  inbound : List (Inbound κ)
  outbound : List SecureIdentSession

inductive CreditMove where
  | accept (userhash : Hash16) (owned : List Bytes) (secIdent : Bool) (challenge : UInt32)
  | drive (i : Nat) (opcode : UInt8) (payload : Bytes) (now : UInt32)
  | dial (userhash : Hash16) (challenge : UInt32)
  | feed (j : Nat) (opcode : UInt8) (payload : Bytes)
  | touch (userhash : Hash16) (now : UInt32)
  | addUploaded (userhash : Hash16) (n : UInt64) (now : UInt32)
  | addDownloaded (userhash : Hash16) (n : UInt64) (now : UInt32)
deriving DecidableEq

namespace CreditWorld

/-- A session over the key on file. -/
def session (w : CreditWorld κ) (userhash : Hash16) (challenge : UInt32) : SecureIdentSession :=
  (SecureIdentSession.withChallenge R id challenge).withStoredKey (w.store.storedKey userhash)

/-- One packet of a connection; the verified sink binds the key it is fired with. -/
def drive (w : CreditWorld κ) (i : Nat) (opcode : UInt8) (payload : Bytes) (now : UInt32)
    (c : Inbound κ) (sec : ServeSec κ) : CreditWorld κ :=
  let (_, key, sec) := sec.drive R opcode payload
  { w with
    inbound := w.inbound.set i { c with sec := some sec }
    store := match key with
      | some key => w.store.bindVerified c.userhash key now
      | none => w.store }

def step (w : CreditWorld κ) : CreditMove → Option (CreditWorld κ)
  | .accept userhash owned secIdent challenge =>
    let sec := if secIdent then some ⟨w.session R id userhash challenge, id, false⟩ else none
    some { w with inbound := w.inbound ++ [⟨userhash, sec, owned⟩] }
  | .drive i opcode payload now =>
    w.inbound[i]?.bind fun c => c.sec.map (w.drive R i opcode payload now c)
  | .dial userhash challenge =>
    some { w with outbound := w.outbound ++ [w.session R id userhash challenge] }
  | .feed j opcode payload =>
    w.outbound[j]?.map fun s =>
      match s.onPacket R id opcode payload with
      | .ok r => { w with outbound := w.outbound.set j r.session }
      | .error _ => w
  | .touch userhash now => some { w with store := w.store.touch userhash now }
  | .addUploaded userhash n now => some { w with store := w.store.addUploaded userhash n now }
  | .addDownloaded userhash n now => some { w with store := w.store.addDownloaded userhash n now }

/-- The score a connection is admitted with. -/
def scoreKey (w : CreditWorld κ) (c : Inbound κ) : Nat :=
  leecherScoreKey ratio w.store (some c.userhash) c.sec

/-! ## What a run must respect -/

/-- The key under which this packet is a signature that checks out. -/
def checksOut (s : SecureIdentSession) (opcode : UInt8) (payload : Bytes) : Option Bytes :=
  if opcode = OP_SIGNATURE ∧ s.verifyAttempted = false then
    match parseSignature payload with
    | .ok sig => s.peerPubkey.filter fun key =>
      verifyV1 R key s.ourPubkey s.ourChallenge sig
    | .error _ => none
  else none

/-- Where a packet checks out, does `p` hold of the connection and the key? -/
def onCheck (p : Inbound κ → Bytes → Bool) (w : CreditWorld κ) : CreditMove → Bool
  | .drive i opcode payload _ => w.inbound[i]?.all fun c =>
      c.sec.all fun sec => (checksOut R sec.session opcode payload).all (p c)
  | _ => true

/-- Only the holder of a private key makes signatures that check out under it. -/
def Authentic (w : CreditWorld κ) (m : CreditMove) : Prop :=
  onCheck R (fun c key => key ∈ c.owned) w m = true

/-- A signature checks out under the key that is bound to the userhash, where one is bound and
    the peer does not hold it anyway. -/
def Timely (w : CreditWorld κ) (m : CreditMove) : Prop :=
  onCheck R (fun c key => (w.store.storedKey c.userhash).all fun bound =>
    bound = key ∨ bound ∈ c.owned) w m = true

instance (w : CreditWorld κ) (m : CreditMove) : Decidable (Authentic R w m) :=
  inferInstanceAs (Decidable (_ = _))

instance (w : CreditWorld κ) (m : CreditMove) : Decidable (Timely R w m) :=
  inferInstanceAs (Decidable (_ = _))

theorem of_onCheck {p : Inbound κ → Bytes → Bool} {w : CreditWorld κ} {i : Nat} {opcode : UInt8}
    {payload : Bytes} {now : UInt32} (h : onCheck R p w (.drive i opcode payload now) = true)
    {c : Inbound κ} (hc : w.inbound[i]? = some c) {sec : ServeSec κ} (hsec : c.sec = some sec)
    {key : Bytes} (hkey : checksOut R sec.session opcode payload = some key) : p c key = true := by
  simpa [onCheck, hc, hsec, hkey] using h

/-! ## One packet -/

/-- A session is verified by a signature that checks out under the key it holds, and by nothing
    else. -/
theorem verified_of_onPacket {s : SecureIdentSession} {opcode : UInt8} {payload : Bytes}
    {r : Reaction} (h : s.onPacket R id opcode payload = .ok r) (hnot : s.peerVerified = false)
    (hver : r.session.peerVerified = true) :
    checksOut R s opcode payload = r.session.peerPubkey ∧ r.session.peerPubkey = s.peerPubkey ∧
      s.peerPubkey.isSome := by
  unfold SecureIdentSession.onPacket at h
  split_ifs at h with hstate hkey hsig
  · cases hparse : parseSecIdentState payload with
    | error e =>
      rw [hparse] at h
      cases h
    | ok p =>
      rw [hparse] at h
      cases h
      rw [(Fed.same_onState R id s p.1 p.2).1.peerVerified, hnot] at hver
      cases hver
  · cases hparse : parsePublicKey payload with
    | error e =>
      rw [hparse] at h
      cases h
    | ok key =>
      rw [hparse] at h
      cases h
      have hsame := Fed.same_trySign R id
        (if s.keyIsOnFile then s else { s with peerPubkey := some key })
      have heq := hsame.peerVerified.symm.trans hver
      split_ifs at heq <;> exact absurd (heq.symm.trans hnot) (by decide)
  · cases hparse : parseSignature payload with
    | error e =>
      rw [hparse] at h
      cases h
    | ok sig =>
      rw [hparse] at h
      cases h
      simp only [SecureIdentSession.onSignature, SecureIdentSession.tryVerify] at hver ⊢
      cases hatt : s.verifyAttempted with
      | true => simp [hnot, hatt] at hver
      | false =>
        cases hpeer : s.peerPubkey with
        | none => simp [hnot, hatt, hpeer] at hver
        | some key =>
          by_cases hzero : s.ourChallenge = 0
          · simp [hnot, hatt, hpeer, hzero] at hver
          · simp only [hnot, hatt, hpeer, hzero, Bool.or_self, Bool.false_eq_true, if_false]
              at hver ⊢
            simp [checksOut, hsig, hatt, hpeer, hparse, Option.filter, hver]
  · cases h
    exact absurd (hver.symm.trans hnot) (by decide)

/-- A key the wire and the store can hold. -/
def Bindable (key : Bytes) : Prop := key ≠ [] ∧ key.length ≤ MAX_PUBKEY_SIZE

theorem bindable_of_parsePublicKey {payload key : Bytes} (h : parsePublicKey payload = .ok key) :
    Bindable key := by
  obtain ⟨rest, hread⟩ := parse_ok h
  obtain ⟨len, t, -, h₁⟩ := Readers.ok_bind hread
  dsimp only at h₁
  split_ifs at h₁ with hbad
  · cases h₁
  · rw [not_or, ← UInt8.toNat_inj] at hbad
    obtain ⟨hpos, hle⟩ := hbad
    unfold readBytes at h₁
    split_ifs at h₁ with hlen
    cases h₁
    refine ⟨List.ne_nil_of_length_pos ?_, ?_⟩ <;> rw [List.length_take]
    · have : len.toNat ≠ 0 := hpos
      omega
    · omega

/-- A session goes on with the key it has, or takes the one it is sent. -/
theorem peerPubkey_of_onPacket {s : SecureIdentSession} {opcode : UInt8} {payload : Bytes}
    {r : Reaction} (h : s.onPacket R id opcode payload = .ok r) :
    r.session.peerPubkey = s.peerPubkey ∨
      ∃ key, parsePublicKey payload = .ok key ∧ r.session.peerPubkey = some key := by
  have hfeed : Fed.feed R id ⟨s, []⟩ (opcode, payload) = some ⟨r.session, r.checks⟩ := by
    simp only [Fed.feed, h]
    rfl
  obtain ⟨f, hf⟩ : ∃ f : Fed, f = ⟨r.session, r.checks⟩ := ⟨_, rfl⟩
  have hsession : r.session = f.session := by rw [hf]
  rw [← hf] at hfeed
  rw [hsession]
  cases Fed.step_cases R hfeed with
  | quiet hkeeps hsame => exact .inl hsame.peerPubkey
  | key hop hparse hfile hsame => exact .inr ⟨_, hparse, hsame.peerPubkey⟩
  | attempt sig hop hkey hfirst hsame => exact .inl hsame.peerPubkey
  | spent hop hunproved hsame => exact .inl hsame.peerPubkey

end CreditWorld

/-! ## Binding -/

namespace CreditStore

theorem bindable_of_storedKey {s : CreditStore} {userhash : Hash16} {key : Bytes}
    (h : s.storedKey userhash = some key) : CreditWorld.Bindable key := by
  obtain ⟨e, -, hkey⟩ := Option.bind_eq_some_iff.mp h
  unfold keyOf at hkey
  split_ifs at hkey with hpos
  cases hkey
  have hlen := e.secureIdent.len
  have hmax : Files.MAX_PUBKEY_SIZE = 80 := rfl
  refine ⟨List.ne_nil_of_length_pos ?_, ?_⟩ <;> rw [List.length_take]
  · omega
  · show _ ≤ 80
    omega

/-- Where no key is stored, the first one is. -/
theorem storedKey_bindVerified {s : CreditStore} {userhash : Hash16}
    (h : s.storedKey userhash = none) {key : Bytes} (hkey : CreditWorld.Bindable key) (now : UInt32) :
    (s.bindVerified userhash key now).storedKey userhash = some key := by
  obtain ⟨hne, hlen⟩ := hkey
  have hpos := List.length_pos_iff.mpr hne
  have hmax : MAX_PUBKEY_SIZE = 80 := rfl
  have hmax' : Files.MAX_PUBKEY_SIZE = 80 := rfl
  have hzero : ((get s.inner userhash).getD (.new userhash now)).keySize = 0 := by
    cases hget : get s.inner userhash with
    | none => rfl
    | some e =>
      rw [storedKey, hget, Option.bind_some, keyOf] at h
      split_ifs at h with hsize
      rw [Option.getD_some]
      exact UInt8.toNat_inj.mp (by simpa using hsize)
  have hsize : (UInt8.ofNat (min key.length Files.MAX_PUBKEY_SIZE)).toNat = key.length := by
    rw [UInt8.toNat_ofNat_of_lt' (by rw [UInt8.size]; omega)]
    omega
  rw [storedKey, bindVerified, get_withEntry, if_pos rfl, Option.bind_some, bindKey, if_pos hzero]
  have htake : (copyKey ((get s.inner userhash).getD (.new userhash now)).secureIdent key).bytes.take
      (min key.length Files.MAX_PUBKEY_SIZE) = key := by
    show (key.take Files.MAX_PUBKEY_SIZE ++ _).take _ = key
    have hall : key.take Files.MAX_PUBKEY_SIZE = key := List.take_of_length_le (by omega)
    rw [hall, Nat.min_eq_left (by omega), List.take_left]
  dsimp only
  split_ifs <;> rw [keyOf, hsize, if_pos hpos, htake]

end CreditStore

namespace CreditWorld

/-! ## The invariant -/

/-- A verified connection has proved the key that is bound, or its peer holds it anyway. -/
structure Proved (store : CreditStore) (c : Inbound κ) : Prop where
  holds : ∀ sec, c.sec = some sec → sec.verified = true ∨ sec.fired = true →
    ∃ bound, store.storedKey c.userhash = some bound ∧ bound ∈ c.owned
  key : ∀ sec, c.sec = some sec → ∀ key, sec.session.peerPubkey = some key → Bindable key

structure Ok (w : CreditWorld κ) : Prop where
  crypto : w.store.cryptoAvailable = true
  proved : ∀ c ∈ w.inbound, Proved w.store c

variable {w w' : CreditWorld κ}

theorem Proved.mono {store store' : CreditStore} {c : Inbound κ} (h : Proved store c)
    (hkeeps : ∀ userhash key, store.storedKey userhash = some key →
      store'.storedKey userhash = some key) : Proved store' c where
  holds sec hsec hver := by
    obtain ⟨bound, hbound, howned⟩ := h.holds sec hsec hver
    exact ⟨bound, hkeeps _ _ hbound, howned⟩
  key := h.key

theorem Ok.withStore (h : Ok w) {userhash : Hash16} {now : UInt32}
    {f : Files.CreditEntry → Files.CreditEntry}
    (hf : ∀ e, CreditStore.keyOf e = none ∨ CreditStore.keyOf (f e) = CreditStore.keyOf e) :
    Ok { w with store := w.store.withEntry userhash now f } where
  crypto := h.crypto
  proved c hc := (h.proved c hc).mono fun _ _ =>
    CreditStore.storedKey_withEntry w.store _ _ now hf

/-- A session just opened has proved nothing, and holds a key only from the store. -/
theorem of_session (w : CreditWorld κ) (userhash : Hash16) (challenge : UInt32) :
    (w.session R id userhash challenge).peerVerified = false ∧
      ∀ key, (w.session R id userhash challenge).peerPubkey = some key → Bindable key := by
  unfold session SecureIdentSession.withStoredKey
  split
  · rename_i key hkey
    obtain ⟨hkey, -⟩ := Option.filter_eq_some_iff.mp hkey
    refine ⟨rfl, fun key' hkey' => ?_⟩
    cases hkey'
    exact CreditStore.bindable_of_storedKey hkey
  · exact ⟨rfl, fun key hkey => by cases hkey⟩

theorem proved_opened (w : CreditWorld κ) (userhash : Hash16) (owned : List Bytes)
    (secIdent : Bool) (challenge : UInt32) :
    Proved w.store ⟨userhash,
      if secIdent then some ⟨w.session R id userhash challenge, id, false⟩ else none, owned⟩ := by
  obtain ⟨hnot, hkey⟩ := of_session R id w userhash challenge
  constructor <;> intro sec hsec
  all_goals
    dsimp only at hsec
    split_ifs at hsec
    cases hsec
  · rintro (hver | hfired)
    · exact absurd (hnot.symm.trans hver) (by decide)
    · cases hfired
  · exact hkey

/-- The packets of one connection, and what its verified sink binds. -/
theorem Proved.drive {store : CreditStore} {c : Inbound κ} (h : Proved store c) {sec : ServeSec κ}
    (hsec : c.sec = some sec) {opcode : UInt8} {payload : Bytes} (now : UInt32)
    (hcheck : ∀ key, checksOut R sec.session opcode payload = some key →
      key ∈ c.owned ∧ ∀ bound, store.storedKey c.userhash = some bound →
        bound = key ∨ bound ∈ c.owned) :
    Proved (match (sec.drive R opcode payload).2.1 with
      | some key => store.bindVerified c.userhash key now
      | none => store) { c with sec := some (sec.drive R opcode payload).2.2 } := by
  have hkeeps : ∀ key? : Option Bytes, ∀ userhash key, store.storedKey userhash = some key →
      (match key? with
        | some key => store.bindVerified c.userhash key now
        | none => store).storedKey userhash = some key := by
    rintro (_ | new) userhash key hkey
    · exact hkey
    · exact CreditStore.storedKey_withEntry store _ _ now (CreditStore.keyOf_bindKey new) hkey
  cases hpkt : sec.session.onPacket R sec.identity opcode payload with
  | error e =>
    have hdrive : sec.drive R opcode payload = ([], none, sec) := by rw [ServeSec.drive, hpkt]
    rw [hdrive]
    exact ⟨fun sec' hsec' => h.holds sec' (hsec.trans hsec'), fun sec' hsec' => h.key sec'
      (hsec.trans hsec')⟩
  | ok r =>
    constructor <;> intro sec' hsec' <;> cases hsec'
    · intro hver
      by_cases hbefore : sec.verified = true ∨ sec.fired = true
      · obtain ⟨bound, hbound, howned⟩ := h.holds sec hsec hbefore
        exact ⟨bound, hkeeps _ _ _ hbound, howned⟩
      · rw [not_or, Bool.not_eq_true, Bool.not_eq_true] at hbefore
        obtain ⟨hnot, hunfired⟩ := hbefore
        cases hproved : r.session.peerVerified with
        | false =>
          have hdrive : sec.drive R opcode payload =
              (r.replies, none, { sec with session := r.session }) := by
            simp only [ServeSec.drive, hpkt, hproved, Bool.false_and, Bool.false_eq_true, if_false]
          rw [hdrive] at hver
          rcases hver with hver | hfired
          · exact absurd (hproved.symm.trans hver) (by decide)
          · exact absurd (hunfired.symm.trans hfired) (by decide)
        | true =>
          obtain ⟨hchecks, hsame, hsome⟩ := verified_of_onPacket R sec.identity hpkt hnot hproved
          obtain ⟨key, hkey⟩ := Option.isSome_iff_exists.mp hsome
          obtain ⟨howned, hbound⟩ := hcheck key (hchecks.trans (hsame.trans hkey))
          have hbytes : r.session.peerPubkeyBytes = key := by
            rw [SecureIdentSession.peerPubkeyBytes, hsame, hkey]
            rfl
          have hdrive : (sec.drive R opcode payload).2.1 = some key := by
            simp [ServeSec.drive, hpkt, hproved, hunfired, hbytes]
          rw [hdrive]
          cases hstored : store.storedKey c.userhash with
          | none =>
            exact ⟨key, CreditStore.storedKey_bindVerified hstored (h.key sec hsec key hkey) now,
              howned⟩
          | some bound =>
            refine ⟨bound, hkeeps (some key) _ _ hstored, ?_⟩
            rcases hbound bound hstored with rfl | hheld
            · exact howned
            · exact hheld
    · intro key hkey
      have hsame : (sec.drive R opcode payload).2.2.session = r.session := by
        rw [ServeSec.drive, hpkt]
        dsimp only
        split_ifs <;> rfl
      rw [hsame] at hkey
      rcases peerPubkey_of_onPacket R sec.identity hpkt with heq | ⟨key', hparse, heq⟩
      · exact h.key sec hsec key (heq.symm.trans hkey)
      · cases heq.symm.trans hkey
        exact bindable_of_parsePublicKey hparse

theorem Ok.drive (h : Ok w) {i : Nat} {opcode : UInt8} {payload : Bytes} {now : UInt32}
    (hauth : Authentic R w (.drive i opcode payload now))
    (htimely : Timely R w (.drive i opcode payload now)) {c : Inbound κ}
    (hc : w.inbound[i]? = some c) {sec : ServeSec κ} (hsec : c.sec = some sec) :
    Ok (w.drive R i opcode payload now c sec) := by
  have hmem := List.mem_of_getElem? hc
  have hcheck (key : Bytes) (hkey : checksOut R sec.session opcode payload = some key) :
      key ∈ c.owned ∧ ∀ bound, w.store.storedKey c.userhash = some bound →
        bound = key ∨ bound ∈ c.owned := by
    have howned := of_onCheck R hauth hc hsec hkey
    have hbound := of_onCheck R htimely hc hsec hkey
    rw [decide_eq_true_eq] at howned
    refine ⟨howned, fun bound hstored => ?_⟩
    rwa [hstored, Option.all_some, decide_eq_true_eq] at hbound
  have hproved := (h.proved c hmem).drive R hsec now hcheck
  refine ⟨?_, fun c' hc' => ?_⟩
  · unfold CreditWorld.drive
    dsimp only
    split
    · exact h.crypto
    · exact h.crypto
  · rcases List.mem_or_eq_of_mem_set hc' with hc' | rfl
    · refine (h.proved c' hc').mono fun userhash key hkey => ?_
      unfold CreditWorld.drive
      dsimp only
      split
      · exact CreditStore.storedKey_withEntry w.store _ _ now (CreditStore.keyOf_bindKey _) hkey
      · exact hkey
    · exact hproved

theorem Ok.step (h : Ok w) {m : CreditMove} (hauth : Authentic R w m) (htimely : Timely R w m)
    (hstep : w.step R id m = some w') : Ok w' := by
  cases m with
  | accept userhash owned secIdent challenge =>
    cases hstep
    refine ⟨h.crypto, fun c hc => ?_⟩
    rcases List.mem_append.mp hc with hc | hc
    · exact h.proved c hc
    · rw [List.mem_singleton.mp hc]
      exact proved_opened R id w userhash owned secIdent challenge
  | drive i opcode payload now =>
    obtain ⟨c, hc, hstep⟩ := Option.bind_eq_some_iff.mp hstep
    obtain ⟨sec, hsec, rfl⟩ := Option.map_eq_some_iff.mp hstep
    exact h.drive R hauth htimely hc hsec
  | dial userhash challenge =>
    cases hstep
    exact ⟨h.crypto, h.proved⟩
  | feed j opcode payload =>
    obtain ⟨s, -, rfl⟩ := Option.map_eq_some_iff.mp hstep
    split
    · exact ⟨h.crypto, h.proved⟩
    · exact h
  | touch userhash now =>
    cases hstep
    exact h.withStore fun _ => .inr rfl
  | addUploaded userhash n now =>
    cases hstep
    exact h.withStore fun _ => .inr rfl
  | addDownloaded userhash n now =>
    cases hstep
    exact h.withStore fun _ => .inr rfl

/-- Every connection whose userhash is bound to a key its peer does not hold earns the floor. -/
def Floored (w : CreditWorld κ) : Prop :=
  ∀ c ∈ w.inbound, ∀ key, w.store.storedKey c.userhash = some key → key ∉ c.owned →
    w.scoreKey ratio c = CREDIT_MIN_KEY

theorem Ok.floored (h : Ok w) : w.Floored ratio := by
  intro c hc key hkey hnot
  refine leecherScoreKey_unproved ratio h.crypto hkey fun sec hsec => ?_
  by_contra hver
  obtain ⟨bound, hbound, howned⟩ := (h.proved c hc).holds sec hsec (.inl (by simpa using hver))
  rw [Option.some.inj (hkey.symm.trans hbound)] at hnot
  exact hnot howned

end CreditWorld

/-- A stolen userhash earns nothing, as long as no connection proves a key after another one was
    bound. -/
theorem stolen_userhash_floor (store : CreditStore) (hcrypto : store.cryptoAvailable = true)
    (moves : List CreditMove)
    (hok : Runs.Throughout (CreditWorld.step R id)
      (fun w m => w.Authentic R m ∧ w.Timely R m) ⟨store, [], []⟩ moves) :
    Runs.Always (CreditWorld.step R id) (CreditWorld.Floored ratio) ⟨store, [], []⟩ moves :=
  Runs.always_of_throughout
    (fun w _ _ (h : w.Ok) hm hstep => h.step R id hm.1 hm.2 hstep) (fun _ h => h.floored ratio)
    ⟨hcrypto, fun _ h => absurd h List.not_mem_nil⟩ hok

/-! ## Two instances -/

/-- A ratio between its bounds, in whole numbers. -/
def ratioKey (uploaded downloaded : UInt64) : Nat :=
  if downloaded.toNat < 1000000 then 1000
  else
    let byUpload := if uploaded = 0 then 10000 else 2000 * downloaded.toNat / uploaded.toNat
    let bySize := Nat.sqrt (1000000 * downloaded.toNat / 1048576 + 2000000)
    max 1000 (min 10000 (min byUpload bySize))

/-- The owner of `[2]` proves its key and sends two megabytes, then the owner of `[3]` claims the
    same userhash. -/
def lateThief : List CreditMove :=
  [.accept (.fill 16 7) [[2]] true 7, .drive 0 OP_PUBLICKEY [1, 2] 1,
    .drive 0 OP_SIGNATURE (48 :: tagSign 2 [1, 7, 0, 0, 0]) 2,
    .addDownloaded (.fill 16 7) 2097152 3, .accept (.fill 16 7) [[3]] true 9,
    .drive 1 OP_PUBLICKEY [1, 3] 4, .drive 1 OP_SIGNATURE (48 :: tagSign 3 [1, 9, 0, 0, 0]) 5]

/-- The same packets, with both connections open before the first of them. -/
def earlyThief : List CreditMove :=
  [.accept (.fill 16 7) [[2]] true 7, .accept (.fill 16 7) [[3]] true 9,
    .drive 0 OP_PUBLICKEY [1, 2] 1, .drive 0 OP_SIGNATURE (48 :: tagSign 2 [1, 7, 0, 0, 0]) 2,
    .addDownloaded (.fill 16 7) 2097152 3, .drive 1 OP_PUBLICKEY [1, 3] 4,
    .drive 1 OP_SIGNATURE (48 :: tagSign 3 [1, 9, 0, 0, 0]) 5]

theorem late_thief_floored :
    ∃ w, Runs.run (CreditWorld.step tagRsa 1) ⟨.empty true, [], []⟩ lateThief = some w ∧
      w.inbound.map (w.scoreKey ratioKey) = [2000, 1000] ∧ w.Floored ratioKey := by
  have hmoves : (Runs.run (CreditWorld.step tagRsa 1) ⟨.empty true, [], []⟩ lateThief).map
      (fun w => w.inbound.map (w.scoreKey ratioKey)) = some [2000, 1000] := by decide +kernel
  obtain ⟨w, hrun, hscores⟩ := Option.map_eq_some_iff.mp hmoves
  exact ⟨w, hrun, hscores, (stolen_userhash_floor tagRsa 1 ratioKey (.empty true) rfl lateThief
    (by decide +kernel)).run hrun⟩

/-- The thief that was there before the key was bound earns what its owner has earned. -/
theorem early_thief_scores :
    Runs.Throughout (CreditWorld.step tagRsa 1) (CreditWorld.Authentic tagRsa) ⟨.empty true, [], []⟩
        earlyThief ∧
      ∃ w, Runs.run (CreditWorld.step tagRsa 1) ⟨.empty true, [], []⟩ earlyThief = some w ∧
        w.store.storedKey (.fill 16 7) = some [2] ∧
        w.inbound.map (fun c => (c.userhash, c.owned)) =
          [(.fill 16 7, [[2]]), (.fill 16 7, [[3]])] ∧
        w.inbound.map (w.scoreKey ratioKey) = [2000, 2000] ∧ ¬w.Floored ratioKey := by
  have hmoves : (Runs.run (CreditWorld.step tagRsa 1) ⟨.empty true, [], []⟩ earlyThief).map
      (fun w => (w.store.storedKey (.fill 16 7), w.inbound.map (fun c => (c.userhash, c.owned)),
        w.inbound.map (w.scoreKey ratioKey))) =
      some (some [2], [(.fill 16 7, [[2]]), (.fill 16 7, [[3]])], [2000, 2000]) := by
    decide +kernel
  obtain ⟨w, hrun, hres⟩ := Option.map_eq_some_iff.mp hmoves
  obtain ⟨hkey, hres⟩ := Prod.mk.inj hres
  obtain ⟨hpeers, hscores⟩ := Prod.mk.inj hres
  refine ⟨by decide +kernel, w, hrun, hkey, hpeers, hscores, fun hfloor => ?_⟩
  -- Every connection here claims the one userhash, and the second does not own its key.
  have hsecond : ∃ c ∈ w.inbound, c.userhash = .fill 16 7 ∧ c.owned = [[3]] := by
    have hmem : (Digest.fill 16 7, [[3]]) ∈ w.inbound.map (fun c => (c.userhash, c.owned)) := by
      rw [hpeers]
      exact List.mem_cons_of_mem _ List.mem_cons_self
    obtain ⟨c, hc, heq⟩ := List.mem_map.mp hmem
    exact ⟨c, hc, (Prod.mk.inj heq).1, (Prod.mk.inj heq).2⟩
  obtain ⟨c, hc, hhash, howned⟩ := hsecond
  have hscore := hfloor c hc [2] (hhash ▸ hkey) (by rw [howned]; decide)
  have hmem := List.mem_map_of_mem (f := w.scoreKey ratioKey) hc
  rw [hscores, hscore] at hmem
  exact absurd hmem (by decide)

end PadMule.Engine
