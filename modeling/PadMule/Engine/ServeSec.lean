import PadMule.Engine.CreditStore
import PadMule.Engine.SecureIdent

/-
  `mule-engine/src/credits.rs`, `credit_store.rs` and `share.rs`: what a verified identity is
  worth.

  `ServeSec` is the secure-ident half of a serve connection, `leecherScoreKey` the queue score
  it earns. The ratio itself is floating point: `ratio uploaded downloaded` stands for
  `(score_ratio(uploaded, downloaded) * 1000.0) as u32`. The gate in front of it is exact.
-/

namespace PadMule.Engine

open PadMule.Proto PadMule.Files FileMap

/-- `(CREDIT_MIN_RATIO * 1000.0) as u32` -/
def CREDIT_MIN_KEY : Nat := 1000

inductive IdentState where
  | notAvailable
  | idNeeded
  | identified
  | idFailed
  | idBadGuy
deriving DecidableEq

def resolveIdentState (hasPubkey : Bool) (verifiedIp : Option UInt32) (currentIp : UInt32)
    (verificationFailed : Bool) : IdentState :=
  if hasPubkey = false then .notAvailable
  else if verificationFailed then .idFailed
  else
    match verifiedIp with
    | some ip => if ip = currentIp then .identified else .idBadGuy
    | none => .idNeeded

variable (ratio : UInt64 → UInt64 → Nat)

/-- No bonus for a key that is not proved, as long as we have crypto. -/
def scoreRatioIdent (uploaded downloaded : UInt64) (ident : IdentState) (cryptoAvailable : Bool) :
    Nat :=
  if cryptoAvailable ∧ (ident = .idFailed ∨ ident = .idBadGuy ∨ ident = .idNeeded) then
    CREDIT_MIN_KEY
  else ratio uploaded downloaded

def CreditStore.score (s : CreditStore) (userhash : Hash16) (verifiedIp : Option UInt32)
    (currentIp : UInt32) (failed : Bool) : Nat :=
  let (uploaded, downloaded, hasKey) :=
    match get s.inner userhash with
    | some e => (e.uploaded, e.downloaded, decide (0 < e.keySize))
    | none => (0, 0, false)
  scoreRatioIdent ratio uploaded downloaded (resolveIdentState hasKey verifiedIp currentIp failed)
    s.cryptoAvailable

/-! ## The serve side of the exchange -/

structure ServeSec (κ : Type) where
  session : SecureIdentSession
  identity : κ
  /-- The verified sink has been fired. -/
  fired : Bool
deriving DecidableEq

variable {κ : Type}

namespace ServeSec

def verified (sec : ServeSec κ) : Bool := sec.session.peerVerified

/-- The replies, the key the verified sink is fired with, and the state behind. A malformed
    packet is dropped. -/
def drive (R : Rsa κ) (sec : ServeSec κ) (opcode : UInt8) (payload : Bytes) :
    List Packet × Option Bytes × ServeSec κ :=
  match sec.session.onPacket R sec.identity opcode payload with
  | .error _ => ([], none, sec)
  | .ok r =>
    if r.session.peerVerified && !sec.fired then
      (r.replies, some r.session.peerPubkeyBytes, { sec with session := r.session, fired := true })
    else (r.replies, none, { sec with session := r.session })

end ServeSec

/-- The score of the leecher on a connection; the IP is not tracked, a proof counts as one from
    the current address. -/
def leecherScoreKey (store : CreditStore) (credit : Option Hash16) (sec : Option (ServeSec κ)) :
    Nat :=
  match credit with
  | some userhash =>
    store.score ratio userhash ((sec.filter ServeSec.verified).map fun _ => 0) 0 false
  | none => CREDIT_MIN_KEY

/-- A key that is bound and not proved on this connection earns the floor. -/
theorem leecherScoreKey_unproved {store : CreditStore} (hcrypto : store.cryptoAvailable = true)
    {userhash : Hash16} {key : Bytes} (hkey : store.storedKey userhash = some key)
    {sec : Option (ServeSec κ)} (hsec : ∀ s, sec = some s → s.verified = false) :
    leecherScoreKey ratio store (some userhash) sec = CREDIT_MIN_KEY := by
  have hip : (sec.filter ServeSec.verified).map (fun _ => (0 : UInt32)) = none := by
    cases sec with
    | none => rfl
    | some s => simp [Option.filter, hsec s rfl]
  obtain ⟨e, he, hek⟩ := Option.bind_eq_some_iff.mp hkey
  have hsize : 0 < e.keySize := by
    by_contra hzero
    simp [CreditStore.keyOf, UInt8.lt_iff_toNat_lt] at hek hzero
    omega
  simp [leecherScoreKey, CreditStore.score, he, hip, hsize, resolveIdentState, scoreRatioIdent,
    hcrypto]

end PadMule.Engine
