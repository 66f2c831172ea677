import PadMule.Engine.PartFile
import PadMule.Lib.Ballots

/-
  `mule-engine/src/multi_source.rs`: trust in an AICH root, and the claims on recovery asks.

  Sources report roots and vote for them, one vote per /20; a root with enough votes is
  trusted, and then a source that reported it may be asked to recover a part. `AichState` is
  the state behind the download's `aich` lock, `AichWorld` adds the answers being applied.
  Iteration over a `HashMap` has no fixed order, so where it decides something the operation
  carries the order. What a run of operations keeps is `Sound`: the votes are everybody's
  first ones, the status is their verdict, and the reports are the last ones.
-/

namespace PadMule.Engine

open FileMap Ballots

def AICH_MIN_UNIQUE_IPS : Nat := 10

def AICH_MIN_PERCENT : Nat := 92

def AICH_CLAIM_STALE_SECS : Nat := 60

def U16_MAX : Nat := 65535

/-! ## Vote keys -/

inductive IpAddr where
  | v4 (a b c d : UInt8)
  | v6 (octets : Vector UInt8 16)
deriving DecidableEq

/-- `u32::from_be_bytes`. -/
def fromBeBytes (a b c d : UInt8) : UInt32 :=
  .ofNat (a.toNat * 2 ^ 24 + b.toNat * 2 ^ 16 + c.toNat * 2 ^ 8 + d.toNat)

/-- `aich_vote_key`: the /20 of an IPv4 source, the leading four bytes of an IPv6 one. -/
def aichVoteKey : IpAddr → UInt32
  | .v4 a b c _ => fromBeBytes a b (c &&& 0xF0) 0
  | .v6 octets => fromBeBytes octets[0] octets[1] octets[2] octets[3]

theorem fromBeBytes_inj {a b c d a' b' c' d' : UInt8} :
    fromBeBytes a b c d = fromBeBytes a' b' c' d' ↔ a = a' ∧ b = b' ∧ c = c' ∧ d = d' := by
  constructor
  · intro h
    have hnat := congrArg UInt32.toNat h
    have ha := a.toNat_lt
    have hb := b.toNat_lt
    have hc := c.toNat_lt
    have hd := d.toNat_lt
    have ha' := a'.toNat_lt
    have hb' := b'.toNat_lt
    have hc' := c'.toNat_lt
    have hd' := d'.toNat_lt
    unfold fromBeBytes at hnat
    rw [UInt32.toNat_ofNat', UInt32.toNat_ofNat', Nat.mod_eq_of_lt (by omega),
      Nat.mod_eq_of_lt (by omega)] at hnat
    refine ⟨UInt8.toNat_inj.mp ?_, UInt8.toNat_inj.mp ?_, UInt8.toNat_inj.mp ?_,
      UInt8.toNat_inj.mp ?_⟩ <;> omega
  · rintro ⟨rfl, rfl, rfl, rfl⟩
    rfl

/-- Two IPv4 sources share a vote exactly when they are in one /20. -/
theorem aichVoteKey_v4 {a b c d a' b' c' d' : UInt8} :
    aichVoteKey (.v4 a b c d) = aichVoteKey (.v4 a' b' c' d') ↔
      a = a' ∧ b = b' ∧ c &&& 0xF0 = c' &&& 0xF0 := by
  unfold aichVoteKey
  rw [fromBeBytes_inj]
  simp

/-! ## The state -/

inductive AichStatus where
  | empty
  | untrusted
  | trusted
  | verified
  | error
deriving DecidableEq

/-- One part awaiting AICH block recovery: who asked and when, and who fed its blocks when it
    was blamed. -/
structure PendingRecovery where
  claim : Option (IpAddr × Nat)
  contributors : Dir Nat (Finset IpAddr)

structure AichState where
  status : AichStatus
  master : Option Hash20
  votes : Box UInt32 Hash20
  reported : Dir IpAddr Hash20
  pending : Dir Nat PendingRecovery

namespace AichState

def new : AichState := ⟨.empty, none, [], [], []⟩

def setAichMasterVerified (a : AichState) (root : Hash20) : AichState :=
  { a with master := some root, status := .verified }

def aichTrustedRoot (a : AichState) : Option Hash20 :=
  match a.status with
  | .trusted | .verified => a.master
  | _ => none

/-- The verdict on the votes, which are iterated in `order`. -/
def tally (a : AichState) (order : List Hash20) : AichState :=
  match maxByKey (fun r => (signers a.votes r).card) order with
  | none => a
  | some best =>
    if Wins AICH_MIN_UNIQUE_IPS AICH_MIN_PERCENT a.votes best then
      { a with master := some best, status := .trusted }
    else { a with master := some best, status := .untrusted }

/-- `note_aich_root`. -/
def noteAichRoot (a : AichState) (ip : IpAddr) (root : Hash20) (order : List Hash20) : AichState :=
  let a := { a with reported := write a.reported ip root }
  if a.status = .verified ∨ a.status = .error then a
  else
    let key := aichVoteKey ip
    if a.votes.any fun e => e.1 ≠ root ∧ key ∈ e.2 then a
    else tally { a with votes := write a.votes root (insert key (signers a.votes root)) } order

/-- A pending part somebody may be asked about. -/
def claimable (size now part : Nat) (pend : PendingRecovery) : Bool :=
  part ≤ U16_MAX && EMBLOCKSIZE < partSize part size &&
    match pend.claim with
    | none => true
    | some (_, t) => AICH_CLAIM_STALE_SECS < now - t

/-- `claim_aich_recovery`; `order` is the order in which it iterates over the pending parts. -/
def claimAichRecovery (a : AichState) (ip : IpAddr) (size now : Nat) (order : List Nat) :
    Option ((Nat × Hash20) × AichState) :=
  a.aichTrustedRoot.bind fun root =>
    if FileMap.get a.reported ip ≠ some root ∨ size ≤ EMBLOCKSIZE then none
    else
      (order.find? fun part =>
        (FileMap.get a.pending part).elim false (claimable size now part)).bind fun part =>
          (FileMap.get a.pending part).map fun pend =>
            ((part, root),
              { a with pending := write a.pending part { pend with claim := some (ip, now) } })

/-- The live claim on a part. -/
def claimOn (a : AichState) (part : Nat) : Option (IpAddr × Nat) :=
  (FileMap.get a.pending part).bind PendingRecovery.claim

def ownsAichClaim (a : AichState) (part : Nat) (ip : IpAddr) : Bool :=
  (a.claimOn part).map Prod.fst = some ip

def aichRecoveryFailed (a : AichState) (part : Nat) (ip : IpAddr) : AichState :=
  match FileMap.get a.pending part with
  | some pend =>
    if pend.claim.map Prod.fst = some ip then
      { a with pending := write a.pending part { pend with claim := none } }
    else a
  | none => a

/-- `localize_corruption` queues a part; fresh contributors replace those of an earlier round. -/
def queueRecovery (a : AichState) (part : Nat) (contributors : Dir Nat (Finset IpAddr)) :
    AichState :=
  match FileMap.get a.pending part with
  | some pend =>
    let merged := contributors.foldl (fun d e => write d e.1 e.2) pend.contributors
    { a with pending := write a.pending part { pend with contributors := merged } }
  | none => { a with pending := write a.pending part ⟨none, contributors⟩ }

/-- The end of `apply_aich_recovery`. -/
def recoveryDone (a : AichState) (part : Nat) : AichState :=
  { a with pending := remove a.pending part }

/-- Its other end: the part it completed has the wrong MD4. -/
def rootRejected (a : AichState) : AichState :=
  { a with status := .error, master := none, pending := [] }

end AichState

/-! ## Runs -/

/-- The shared state, and the answers being applied with their sources. -/
structure AichWorld where
  aich : AichState
  applying : List (Nat × IpAddr)

inductive AichOp where
  | report (ip : IpAddr) (root : Hash20) (order : List Hash20)
  | verifyRoot (root : Hash20)
  | claim (ip : IpAddr) (size now : Nat) (order : List Nat)
  | fail (part : Nat) (ip : IpAddr)
  /-- an answer that verified, from the claim's owner -/
  | answer (part : Nat) (root : Hash20) (ip : IpAddr)
  /-- an answer has been applied; `disagrees` if the completed part has the wrong MD4 -/
  | applied (k : Nat) (disagrees : Bool)
  /-- a read failed, or the connection was dropped -/
  | abandon (k : Nat)
  | localize (bad : List (Nat × Dir Nat (Finset IpAddr)))

namespace AichWorld

def start : AichWorld := ⟨.new, []⟩

/-- One operation; `none` where it cannot happen. -/
def step (w : AichWorld) : AichOp → Option AichWorld
  | .report ip root order =>
    if order.Perm (names (Ballots.cast w.aich.votes (aichVoteKey ip) root)) then
      some { w with aich := w.aich.noteAichRoot ip root order }
    else none
  | .verifyRoot root => some { w with aich := w.aich.setAichMasterVerified root }
  | .claim ip size now order =>
    if order.Perm (names w.aich.pending) then
      some { w with aich := ((w.aich.claimAichRecovery ip size now order).map Prod.snd).getD w.aich }
    else none
  | .fail part ip => some { w with aich := w.aich.aichRecoveryFailed part ip }
  | .answer part root ip =>
    if w.aich.aichTrustedRoot = some root ∧ w.aich.ownsAichClaim part ip then
      some { w with applying := w.applying ++ [(part, ip)] }
    else none
  | .applied k disagrees =>
    (w.applying[k]?).map fun pass =>
      ⟨if disagrees then w.aich.rootRejected else w.aich.recoveryDone pass.1, w.applying.eraseIdx k⟩
  | .abandon k => (w.applying[k]?).map fun _ => { w with applying := w.applying.eraseIdx k }
  | .localize bad =>
    some { w with aich := bad.foldl (fun a b => a.queueRecovery b.1 b.2) w.aich }

def run (w : AichWorld) : List AichOp → Option AichWorld
  | [] => some w
  | op :: ops => (w.step op).bind fun w' => w'.run ops

/-- `ok` holds of every operation, in the state it meets. -/
def Throughout (ok : AichWorld → AichOp → Prop) : AichWorld → List AichOp → Prop
  | _, [] => True
  | w, op :: ops => ok w op ∧ ∀ w', w.step op = some w' → Throughout ok w' ops

end AichWorld

/-! ## What a report does -/

namespace AichState

/-- Votes still count. -/
def Voting (a : AichState) : Prop := ¬(a.status = .verified ∨ a.status = .error)

/-- Trust is the verdict of the votes. -/
def Follows (a : AichState) : Prop :=
  a.Voting → ∀ r, a.aichTrustedRoot = some r ↔ Wins AICH_MIN_UNIQUE_IPS AICH_MIN_PERCENT a.votes r

/-- The tally moves nothing but the root and its status. -/
theorem tally_static (a : AichState) (order : List Hash20) :
    (a.tally order).votes = a.votes ∧ (a.tally order).reported = a.reported ∧
      (a.tally order).pending = a.pending := by
  unfold tally
  split
  · exact ⟨rfl, rfl, rfl⟩
  · split_ifs <;> exact ⟨rfl, rfl, rfl⟩

theorem tally_follows {a : AichState} {votes : List (UInt32 × Hash20)} (h : Counts a.votes votes)
    {order : List Hash20} (horder : order.Perm (names a.votes)) (hne : a.votes ≠ []) :
    (a.tally order).Voting ∧ (a.tally order).Follows := by
  obtain ⟨-, hnil⟩ | ⟨best, -, hbest, -⟩ := maxByKey_spec (fun r => (signers a.votes r).card) order
  · rw [hnil] at horder
    exact absurd (List.map_eq_nil_iff.mp horder.nil_eq.symm) hne
  · unfold tally Follows
    rw [hbest]
    dsimp only
    split_ifs with hwins
    · refine ⟨by simp [Voting], fun _ r => ⟨fun hroot => ?_, fun hr => ?_⟩⟩
      · rw [← Option.some.inj hroot]
        exact hwins
      · exact congrArg some (h.leader_of_wins (by decide) horder hbest (by decide) hr)
    · refine ⟨by simp [Voting], fun _ r => ⟨fun hroot => ?_, fun hr => absurd hr ?_⟩⟩
      · cases hroot
      · rw [← h.leader_of_wins (by decide) horder hbest (by decide) hr]
        exact hwins

/-- A report is recorded, and counts if votes do and the /20 has not voted otherwise. -/
theorem noteAichRoot_cases (a : AichState) (ip : IpAddr) (root : Hash20) (order : List Hash20) :
    (a.noteAichRoot ip root order = { a with reported := write a.reported ip root } ∧
        (a.Voting → Ballots.cast a.votes (aichVoteKey ip) root = a.votes)) ∨
      (a.Voting ∧ Ballots.cast a.votes (aichVoteKey ip) root ≠ [] ∧
        a.noteAichRoot ip root order = tally { a with
          reported := write a.reported ip root
          votes := Ballots.cast a.votes (aichVoteKey ip) root } order) := by
  unfold noteAichRoot Ballots.cast
  dsimp only
  split_ifs with hfrozen hany
  · exact .inl ⟨rfl, fun h => absurd hfrozen h⟩
  · exact .inl ⟨rfl, fun h => absurd hfrozen h⟩
  · exact .inl ⟨rfl, fun _ => rfl⟩
  · exact .inr ⟨hfrozen, List.cons_ne_nil _ _, rfl⟩

theorem reported_note (a : AichState) (ip : IpAddr) (root : Hash20) (order : List Hash20) :
    (a.noteAichRoot ip root order).reported = write a.reported ip root := by
  rcases a.noteAichRoot_cases ip root order with ⟨h, -⟩ | ⟨-, -, h⟩
  · rw [h]
  · rw [h, (tally_static _ _).2.1]

theorem pending_note (a : AichState) (ip : IpAddr) (root : Hash20) (order : List Hash20) :
    (a.noteAichRoot ip root order).pending = a.pending := by
  rcases a.noteAichRoot_cases ip root order with ⟨h, -⟩ | ⟨-, -, h⟩
  · rw [h]
  · rw [h, (tally_static _ _).2.2]

end AichState

/-! ## What the claims are -/

namespace AichState

/-- Only the pending parts differ. -/
structure SameTrust (a a' : AichState) : Prop where
  status_eq : a'.status = a.status
  master_eq : a'.master = a.master
  votes_eq : a'.votes = a.votes
  reported_eq : a'.reported = a.reported

theorem SameTrust.refl (a : AichState) : SameTrust a a := ⟨rfl, rfl, rfl, rfl⟩

theorem SameTrust.trans {a b c : AichState} (h : SameTrust a b) (h' : SameTrust b c) :
    SameTrust a c :=
  ⟨h'.status_eq.trans h.status_eq, h'.master_eq.trans h.master_eq, h'.votes_eq.trans h.votes_eq,
    h'.reported_eq.trans h.reported_eq⟩

theorem SameTrust.root_eq {a a' : AichState} (h : SameTrust a a') :
    a'.aichTrustedRoot = a.aichTrustedRoot := by
  unfold aichTrustedRoot
  rw [h.status_eq, h.master_eq]

/-- Writing a pending part sets its claim. -/
theorem claimOn_write (a : AichState) (part : Nat) (pend : PendingRecovery) (p : Nat) :
    ({ a with pending := write a.pending part pend } : AichState).claimOn p =
      if p = part then pend.claim else a.claimOn p := by
  unfold claimOn
  rw [get_write]
  split_ifs <;> rfl

/-- What a grant says about the state, and what it leaves. -/
theorem claim_cases {a a' : AichState} {ip : IpAddr} {size now : Nat} {order : List Nat} {part : Nat}
    {root : Hash20} (h : a.claimAichRecovery ip size now order = some ((part, root), a')) :
    a.aichTrustedRoot = some root ∧ FileMap.get a.reported ip = some root ∧
      (∀ o t, a.claimOn part = some (o, t) → AICH_CLAIM_STALE_SECS < now - t) ∧
      (∀ p, a'.claimOn p = if p = part then some (ip, now) else a.claimOn p) ∧ SameTrust a a' := by
  obtain ⟨root', hroot, h⟩ := Option.bind_eq_some_iff.mp h
  split_ifs at h with hask
  obtain ⟨part', hfind, h⟩ := Option.bind_eq_some_iff.mp h
  obtain ⟨pend, hpend, h⟩ := Option.map_eq_some_iff.mp h
  cases h
  have hready := List.find?_some hfind
  rw [hpend] at hready
  have hready : claimable size now part pend = true := hready
  refine ⟨hroot, not_not.mp (not_or.mp hask).1, fun o t hclaim => ?_, claimOn_write a part _,
    rfl, rfl, rfl, rfl⟩
  have hpendclaim : pend.claim = some (o, t) := by
    rw [claimOn, hpend] at hclaim
    exact hclaim
  simp only [claimable, hpendclaim, Bool.and_eq_true, decide_eq_true_eq] at hready
  exact hready.2

theorem failed_static (a : AichState) (part : Nat) (ip : IpAddr) :
    SameTrust a (a.aichRecoveryFailed part ip) := by
  unfold aichRecoveryFailed
  split
  · split_ifs
    · exact ⟨rfl, rfl, rfl, rfl⟩
    · exact .refl a
  · exact .refl a

/-- A failure releases the claim of the source that failed, and no other. -/
theorem claimOn_failed (a : AichState) (part : Nat) (ip : IpAddr) (p : Nat) :
    (a.aichRecoveryFailed part ip).claimOn p =
      if p = part ∧ (a.claimOn p).map Prod.fst = some ip then none else a.claimOn p := by
  unfold aichRecoveryFailed
  cases hpend : FileMap.get a.pending part with
  | none =>
    by_cases hp : p = part
    · simp [hp, claimOn, hpend]
    · simp [hp]
  | some pend =>
    have hclaim : a.claimOn part = pend.claim := by
      unfold claimOn
      rw [hpend]
      rfl
    dsimp only
    split_ifs with hown hand hand
    · rw [claimOn_write, if_pos hand.1]
    · rw [claimOn_write, if_neg]
      rintro rfl
      exact hand ⟨rfl, by rw [hclaim, hown]⟩
    · refine absurd ?_ hown
      rw [← hclaim, ← hand.1]
      exact hand.2
    · rfl

theorem queue_static (a : AichState) (part : Nat) (contributors : Dir Nat (Finset IpAddr)) :
    SameTrust a (a.queueRecovery part contributors) := by
  unfold queueRecovery
  split <;> exact ⟨rfl, rfl, rfl, rfl⟩

/-- Queueing a part again keeps its claim. -/
theorem claimOn_queue (a : AichState) (part : Nat) (contributors : Dir Nat (Finset IpAddr))
    (p : Nat) : (a.queueRecovery part contributors).claimOn p = a.claimOn p := by
  unfold queueRecovery
  cases hpend : FileMap.get a.pending part with
  | none =>
    dsimp only
    rw [claimOn_write]
    split_ifs with hp
    · rw [hp, claimOn, hpend]
      rfl
    · rfl
  | some pend =>
    dsimp only
    rw [claimOn_write]
    split_ifs with hp
    · rw [hp, claimOn, hpend]
      rfl
    · rfl

theorem localize_static (bad : List (Nat × Dir Nat (Finset IpAddr))) (a : AichState) :
    SameTrust a (bad.foldl (fun a b => a.queueRecovery b.1 b.2) a) ∧
      ∀ p, (bad.foldl (fun a b => a.queueRecovery b.1 b.2) a).claimOn p = a.claimOn p := by
  induction bad generalizing a with
  | nil => exact ⟨.refl a, fun _ => rfl⟩
  | cons b bad ih =>
    obtain ⟨htrust, hclaims⟩ := ih (a.queueRecovery b.1 b.2)
    exact ⟨(queue_static a b.1 b.2).trans htrust,
      fun p => (hclaims p).trans (claimOn_queue a b.1 b.2 p)⟩

theorem claimOn_done (a : AichState) (part p : Nat) :
    (a.recoveryDone part).claimOn p = if p = part then none else a.claimOn p := by
  unfold recoveryDone claimOn
  rw [get_remove]
  split_ifs <;> rfl

end AichState

/-! ## What an operation can do -/

namespace AichWorld

/-- Everything an operation can do. -/
inductive Stepped (w : AichWorld) : AichOp → AichWorld → Prop where
  | reported (ip : IpAddr) (root : Hash20) {order : List Hash20}
      (horder : order.Perm (names (Ballots.cast w.aich.votes (aichVoteKey ip) root))) :
    Stepped w (.report ip root order) { w with aich := w.aich.noteAichRoot ip root order }
  | verified (root : Hash20) :
    Stepped w (.verifyRoot root) { w with aich := w.aich.setAichMasterVerified root }
  | granted {ip : IpAddr} {size now : Nat} {order : List Nat} {part : Nat} {root : Hash20}
      {a : AichState} (hgrant : w.aich.claimAichRecovery ip size now order = some ((part, root), a)) :
    Stepped w (.claim ip size now order) { w with aich := a }
  | refused (ip : IpAddr) (size now : Nat) (order : List Nat) :
    Stepped w (.claim ip size now order) w
  | failed (part : Nat) (ip : IpAddr) :
    Stepped w (.fail part ip) { w with aich := w.aich.aichRecoveryFailed part ip }
  | accepted {part : Nat} {ip : IpAddr} (root : Hash20)
      (hown : (w.aich.claimOn part).map Prod.fst = some ip) :
    Stepped w (.answer part root ip) { w with applying := w.applying ++ [(part, ip)] }
  | done {k : Nat} {pass : Nat × IpAddr} (hpass : w.applying[k]? = some pass) :
    Stepped w (.applied k false) ⟨w.aich.recoveryDone pass.1, w.applying.eraseIdx k⟩
  | rejected (k : Nat) : Stepped w (.applied k true) ⟨w.aich.rootRejected, w.applying.eraseIdx k⟩
  | abandoned (k : Nat) : Stepped w (.abandon k) { w with applying := w.applying.eraseIdx k }
  | localized (bad : List (Nat × Dir Nat (Finset IpAddr))) :
    Stepped w (.localize bad)
      { w with aich := bad.foldl (fun a b => a.queueRecovery b.1 b.2) w.aich }

theorem step_cases {w w' : AichWorld} {op : AichOp} (h : w.step op = some w') : Stepped w op w' := by
  cases op with
  | report ip root order =>
    simp only [step] at h
    split_ifs at h with horder
    cases h
    exact .reported ip root horder
  | verifyRoot root =>
    cases h
    exact .verified root
  | claim ip size now order =>
    simp only [step] at h
    split_ifs at h
    cases h
    cases hgrant : w.aich.claimAichRecovery ip size now order with
    | none => exact .refused ip size now order
    | some r =>
      obtain ⟨⟨part, root⟩, aich⟩ := r
      exact .granted hgrant
  | fail part ip =>
    cases h
    exact .failed part ip
  | answer part root ip =>
    simp only [step] at h
    split_ifs at h with hown
    cases h
    exact .accepted root (of_decide_eq_true hown.2)
  | applied k disagrees =>
    obtain ⟨pass, hpass, rfl⟩ := Option.map_eq_some_iff.mp h
    cases disagrees with
    | false => exact .done hpass
    | true => exact .rejected k
  | abandon k =>
    obtain ⟨pass, hpass, rfl⟩ := Option.map_eq_some_iff.mp h
    exact .abandoned k
  | localize bad =>
    cases h
    exact .localized bad

end AichWorld

/-! ## What a run keeps -/

/-- The reports of a run, oldest first. -/
def reports (ops : List AichOp) : List (IpAddr × Hash20) :=
  ops.filterMap fun
    | .report ip root _ => some (ip, root)
    | _ => none

/-- The votes they are. -/
def ballots (ops : List AichOp) : List (UInt32 × Hash20) :=
  (reports ops).map fun r => (aichVoteKey r.1, r.2)

/-- The root a source reported last. -/
def lastReport (ops : List AichOp) (ip : IpAddr) : Option Hash20 := (reports ops).reverse.lookup ip

namespace AichWorld

/-- Until votes stop counting every first vote is in the box; trust is their verdict; and the
    reports are the last ones. -/
structure Sound (ops : List AichOp) (w : AichWorld) : Prop where
  counted : ∃ votes, votes <+: ballots ops ∧ Counts w.aich.votes votes ∧
    (w.aich.Voting → votes = ballots ops)
  follows : w.aich.Follows
  reported : ∀ ip, FileMap.get w.aich.reported ip = lastReport ops ip

theorem sound_start : Sound [] start where
  counted := ⟨[], List.nil_prefix, counts_nil, fun _ => rfl⟩
  follows _ r := by
    constructor
    · intro h
      cases h
    · intro h
      exact absurd h.1 (by simp [start, AichState.new, signers, FileMap.get, AICH_MIN_UNIQUE_IPS])
  reported ip := rfl

theorem reports_append (ops ops' : List AichOp) :
    reports (ops ++ ops') = reports ops ++ reports ops' := List.filterMap_append

theorem ballots_append (ops ops' : List AichOp) :
    ballots (ops ++ ops') = ballots ops ++ ballots ops' := by
  unfold ballots
  rw [reports_append, List.map_append]

theorem lastReport_report (ops : List AichOp) (ip j : IpAddr) (root : Hash20)
    (order : List Hash20) :
    lastReport (ops ++ [.report ip root order]) j = if j = ip then some root else lastReport ops j := by
  have hreports : reports (ops ++ [.report ip root order]) = reports ops ++ [(ip, root)] :=
    reports_append ops [.report ip root order]
  unfold lastReport
  rw [hreports, List.reverse_append, List.reverse_singleton, List.singleton_append,
    List.lookup_cons]
  by_cases hj : j = ip
  · rw [if_pos hj, beq_iff_eq.mpr hj]
  · rw [if_neg hj, beq_eq_false_iff_ne.mpr hj]

/-- Operations that record no report and touch neither the votes nor the trust. -/
theorem Sound.quiet {ops : List AichOp} {w : AichWorld} (h : Sound ops w) {op : AichOp}
    (hop : reports [op] = []) {w' : AichWorld} (hvotes : w'.aich.votes = w.aich.votes)
    (hreported : w'.aich.reported = w.aich.reported)
    (htrust : w'.aich.Voting → w.aich.Voting ∧ w'.aich.aichTrustedRoot = w.aich.aichTrustedRoot) :
    Sound (ops ++ [op]) w' := by
  have hballots : ballots (ops ++ [op]) = ballots ops := by
    rw [ballots_append, ballots, ballots, hop, List.map_nil, List.append_nil]
  obtain ⟨votes, hcounted, hcounts, hall⟩ := h.counted
  refine ⟨⟨votes, ?_, ?_, fun hvoting => ?_⟩, fun hvoting r => ?_, fun ip => ?_⟩
  · rwa [hballots]
  · rwa [hvotes]
  · rw [hballots]
    exact hall (htrust hvoting).1
  · rw [(htrust hvoting).2, hvotes]
    exact h.follows (htrust hvoting).1 r
  · rw [hreported, h.reported ip, lastReport, lastReport, reports_append, hop, List.append_nil]

/-- A report, recorded and counted. -/
theorem Sound.reports {ops : List AichOp} {w : AichWorld} (h : Sound ops w) (ip : IpAddr)
    (root : Hash20) {order : List Hash20}
    (horder : order.Perm (names (Ballots.cast w.aich.votes (aichVoteKey ip) root))) :
    Sound (ops ++ [.report ip root order]) { w with aich := w.aich.noteAichRoot ip root order } := by
  obtain ⟨votes, hgrown, hcounts, hall⟩ := h.counted
  have hballots : ballots (ops ++ [.report ip root order]) =
      ballots ops ++ [(aichVoteKey ip, root)] := ballots_append ops [.report ip root order]
  have hreported : ∀ j, FileMap.get (w.aich.noteAichRoot ip root order).reported j =
      lastReport (ops ++ [.report ip root order]) j := by
    intro j
    rw [AichState.reported_note, get_write, lastReport_report, h.reported]
  rcases w.aich.noteAichRoot_cases ip root order with ⟨hnote, hcast⟩ | ⟨hvoting, hne, hnote⟩
  · refine ⟨?_, ?_, hreported⟩
    · by_cases hvoting : w.aich.Voting
      · refine ⟨votes ++ [(aichVoteKey ip, root)], ?_, ?_, fun _ => ?_⟩
        · rw [hballots, hall hvoting]
        · have hnext := hcounts.cast (aichVoteKey ip) root
          rw [hcast hvoting] at hnext
          rw [hnote]
          exact hnext
        · rw [hballots, hall hvoting]
      · refine ⟨votes, ?_, ?_, fun hv => ?_⟩
        · rw [hballots]
          exact hgrown.trans (List.prefix_append _ _)
        · rw [hnote]
          exact hcounts
        · rw [hnote] at hv
          exact absurd hv hvoting
    · rw [hnote]
      exact h.follows
  · have hnext := hcounts.cast (aichVoteKey ip) root
    have hfollows := AichState.tally_follows (a := { w.aich with
      reported := write w.aich.reported ip root
      votes := Ballots.cast w.aich.votes (aichVoteKey ip) root }) hnext horder hne
    refine ⟨⟨votes ++ [(aichVoteKey ip, root)], ?_, ?_, fun _ => ?_⟩, ?_, hreported⟩
    · rw [hballots, hall hvoting]
    · rw [hnote, (AichState.tally_static _ _).1]
      exact hnext
    · rw [hballots, hall hvoting]
    · rw [hnote]
      exact hfollows.2

theorem Sound.sameTrust {ops : List AichOp} {w : AichWorld} (h : Sound ops w) {op : AichOp}
    (hop : PadMule.Engine.reports [op] = []) {w' : AichWorld}
    (htrust : AichState.SameTrust w.aich w'.aich) : Sound (ops ++ [op]) w' := by
  refine h.quiet hop htrust.votes_eq htrust.reported_eq fun hvoting => ⟨?_, htrust.root_eq⟩
  unfold AichState.Voting at hvoting ⊢
  rwa [← htrust.status_eq]

theorem Sound.step {ops : List AichOp} {w w' : AichWorld} (h : Sound ops w) {op : AichOp}
    (hs : w.step op = some w') : Sound (ops ++ [op]) w' := by
  cases step_cases hs with
  | reported ip root horder => exact h.reports ip root horder
  | verified root => exact h.quiet rfl rfl rfl fun hvoting => absurd (.inl rfl) hvoting
  | granted hgrant => exact h.sameTrust rfl (AichState.claim_cases hgrant).2.2.2.2
  | refused => exact h.sameTrust rfl (.refl _)
  | failed part ip => exact h.sameTrust rfl (AichState.failed_static _ _ _)
  | accepted => exact h.sameTrust rfl (.refl _)
  | done => exact h.sameTrust rfl ⟨rfl, rfl, rfl, rfl⟩
  | rejected => exact h.quiet rfl rfl rfl fun hvoting => absurd (.inr rfl) hvoting
  | abandoned => exact h.sameTrust rfl (.refl _)
  | localized bad => exact h.sameTrust rfl (AichState.localize_static bad w.aich).1

theorem Sound.run {ops : List AichOp} {w : AichWorld} (h : Sound ops w) {ops' : List AichOp}
    {w' : AichWorld} (hrun : w.run ops' = some w') : Sound (ops ++ ops') w' := by
  induction ops' generalizing ops w with
  | nil =>
    cases hrun
    rwa [List.append_nil]
  | cons op ops' ih =>
    obtain ⟨v, hv, hrun⟩ := Option.bind_eq_some_iff.mp hrun
    have hrest := ih (h.step hv) hrun
    rwa [List.append_assoc] at hrest

/-- A vote that is in the box is the first one of its /20 in the whole run. -/
theorem Sound.lookup {ops : List AichOp} {w : AichWorld} (h : Sound ops w) {k : UInt32}
    {r : Hash20} (hk : k ∈ signers w.aich.votes r) : (ballots ops).lookup k = some r := by
  obtain ⟨votes, ⟨rest, hrest⟩, hcounts, -⟩ := h.counted
  rw [← hrest, List.lookup_append, (hcounts.signed r k).mp hk, Option.some_or]

theorem Sound.lookup_append {ops : List AichOp} {w : AichWorld} (h : Sound ops w) {k : UInt32}
    {r : Hash20} (hk : k ∈ signers w.aich.votes r) (ops' : List AichOp) :
    (ballots (ops ++ ops')).lookup k = some r := by
  rw [ballots_append, List.lookup_append, h.lookup hk, Option.some_or]

/-- While votes count, everybody's first report decides. -/
theorem Sound.trust_congr {ops ops' : List AichOp} {w w' : AichWorld} (h : Sound ops w)
    (h' : Sound ops' w') (hvoting : w.aich.Voting) (hvoting' : w'.aich.Voting)
    (hfirst : ∀ k, (ballots ops).lookup k = (ballots ops').lookup k) :
    w.aich.aichTrustedRoot = w'.aich.aichTrustedRoot := by
  obtain ⟨votes, -, hcounts, hall⟩ := h.counted
  obtain ⟨votes', -, hcounts', hall'⟩ := h'.counted
  refine Option.ext fun r => ?_
  rw [h.follows hvoting, h'.follows hvoting']
  refine hcounts.wins_congr hcounts' (fun k => ?_) r
  rw [hall hvoting, hall' hvoting', hfirst]

/-! ## How trust and claims end -/

/-- A root that came with the file goes only when recovery proves it wrong, and a download
    whose root was proved wrong trusts none again. -/
theorem status_step {w w' : AichWorld} {op : AichOp} (hs : w.step op = some w')
    (hop : ∀ root, op ≠ .verifyRoot root) :
    (w.aich.status = .verified → (w'.aich.status = .verified ∧ w'.aich.master = w.aich.master) ∨
      (w'.aich.status = .error ∧ ∃ k, op = .applied k true)) ∧
    (w.aich.status = .error → w'.aich.status = .error) := by
  have hsame : AichState.SameTrust w.aich w'.aich →
      (w.aich.status = .verified → (w'.aich.status = .verified ∧ w'.aich.master = w.aich.master) ∨
        (w'.aich.status = .error ∧ ∃ k, op = .applied k true)) ∧
      (w.aich.status = .error → w'.aich.status = .error) := fun h =>
    ⟨fun hv => .inl ⟨h.status_eq.trans hv, h.master_eq⟩, fun he => h.status_eq.trans he⟩
  cases step_cases hs with
  | @reported ip root order horder =>
    rcases w.aich.noteAichRoot_cases ip root order with ⟨hnote, -⟩ | ⟨hvoting, -, -⟩
    · refine ⟨fun hv => .inl ?_, fun he => ?_⟩
      · rw [hnote]
        exact ⟨hv, rfl⟩
      · rw [hnote]
        exact he
    · exact ⟨fun hv => absurd (.inl hv) hvoting, fun he => absurd (.inr he) hvoting⟩
  | verified root => exact absurd rfl (hop root)
  | granted hgrant => exact hsame (AichState.claim_cases hgrant).2.2.2.2
  | refused => exact hsame (.refl _)
  | failed part ip => exact hsame (AichState.failed_static _ _ _)
  | accepted => exact hsame (.refl _)
  | done => exact hsame ⟨rfl, rfl, rfl, rfl⟩
  | rejected k => exact ⟨fun _ => .inr ⟨rfl, k, rfl⟩, fun _ => rfl⟩
  | abandoned => exact hsame (.refl _)
  | localized bad => exact hsame (AichState.localize_static bad w.aich).1

theorem status_run {w w' : AichWorld} {ops : List AichOp} (h : w.run ops = some w')
    (hops : ∀ root, AichOp.verifyRoot root ∉ ops) :
    (w.aich.status = .verified → (w'.aich.status = .verified ∧ w'.aich.master = w.aich.master) ∨
      (w'.aich.status = .error ∧ ∃ k, .applied k true ∈ ops)) ∧
    (w.aich.status = .error → w'.aich.status = .error) := by
  induction ops generalizing w with
  | nil =>
    cases h
    exact ⟨fun hv => .inl ⟨hv, rfl⟩, id⟩
  | cons op ops ih =>
    obtain ⟨v, hv, h⟩ := Option.bind_eq_some_iff.mp h
    have hone := status_step hv fun root heq => hops root (heq ▸ List.mem_cons_self ..)
    have hrest := ih h fun root hin => hops root (List.mem_cons_of_mem _ hin)
    refine ⟨fun hverified => ?_, fun herror => hrest.2 (hone.2 herror)⟩
    rcases hone.1 hverified with ⟨hstill, hmaster⟩ | ⟨herror, k, rfl⟩
    · rcases hrest.1 hstill with ⟨hlast, hsame⟩ | ⟨herror, k, hk⟩
      · exact .inl ⟨hlast, hsame.trans hmaster⟩
      · exact .inr ⟨herror, k, List.mem_cons_of_mem _ hk⟩
    · exact .inr ⟨hrest.2 herror, k, List.mem_cons_self ..⟩

/-- What ends the claim of `o`, made at `t`, on a part. -/
inductive Ends (w : AichWorld) (part : Nat) (o : IpAddr) (t : Nat) : AichOp → Prop where
  | failed : Ends w part o t (.fail part o)
  | takenOver (ip : IpAddr) (size now : Nat) (order : List Nat) (h : AICH_CLAIM_STALE_SECS < now - t) :
    Ends w part o t (.claim ip size now order)
  | answered {k : Nat} {ip : IpAddr} (h : w.applying[k]? = some (part, ip)) :
    Ends w part o t (.applied k false)
  | rejected (k : Nat) : Ends w part o t (.applied k true)

theorem claim_ends {w w' : AichWorld} {op : AichOp} (hs : w.step op = some w') {part : Nat}
    {o : IpAddr} {t : Nat} (hclaim : w.aich.claimOn part = some (o, t)) :
    w'.aich.claimOn part = some (o, t) ∨ Ends w part o t op := by
  cases step_cases hs with
  | reported ip root horder =>
    left
    rw [AichState.claimOn, AichState.pending_note]
    exact hclaim
  | verified root => exact .inl hclaim
  | @granted ip size now order p root a hgrant =>
    obtain ⟨-, -, hstale, hclaims, -⟩ := AichState.claim_cases hgrant
    rw [hclaims]
    split_ifs with hp
    · subst hp
      exact .inr (.takenOver ip size now order (hstale o t hclaim))
    · exact .inl hclaim
  | refused => exact .inl hclaim
  | failed p ip =>
    rw [AichState.claimOn_failed]
    split_ifs with hp
    · obtain ⟨rfl, hown⟩ := hp
      rw [hclaim] at hown
      cases hown
      exact .inr .failed
    · exact .inl hclaim
  | accepted => exact .inl hclaim
  | @done k pass hpass =>
    rw [AichState.claimOn_done]
    split_ifs with hp
    · subst hp
      exact .inr (.answered hpass)
    · exact .inl hclaim
  | rejected k => exact .inr (.rejected k)
  | abandoned => exact .inl hclaim
  | localized bad => exact .inl (((AichState.localize_static bad w.aich).2 part).trans hclaim)

/-- No claim on a part is granted while an answer for it is being applied. -/
def Undisturbed (w : AichWorld) : AichOp → Prop
  | .claim ip size now order => ∀ part root a,
    w.aich.claimAichRecovery ip size now order = some ((part, root), a) →
      ∀ ip', (part, ip') ∉ w.applying
  | _ => True

/-- Whose answer is being applied has the claim, if anybody does. -/
def OwnersApply (w : AichWorld) : Prop :=
  ∀ part ip, (part, ip) ∈ w.applying → ∀ o t, w.aich.claimOn part = some (o, t) → o = ip

theorem ownersApply_step {w w' : AichWorld} {op : AichOp} (h : OwnersApply w)
    (hs : w.step op = some w') (hok : Undisturbed w op) : OwnersApply w' := by
  intro part ip hin o t hclaim
  cases step_cases hs with
  | reported ip' root horder =>
    rw [AichState.claimOn, AichState.pending_note] at hclaim
    exact h part ip hin o t hclaim
  | verified root => exact h part ip hin o t hclaim
  | @granted ip' size now order p root a hgrant =>
    rw [(AichState.claim_cases hgrant).2.2.2.1] at hclaim
    split_ifs at hclaim with hp
    · exact absurd (hp ▸ hin) (hok p root a hgrant ip)
    · exact h part ip hin o t hclaim
  | refused => exact h part ip hin o t hclaim
  | failed p ip' =>
    rw [AichState.claimOn_failed] at hclaim
    split_ifs at hclaim
    exact h part ip hin o t hclaim
  | @accepted p ip' root hown =>
    rcases List.mem_append.mp hin with hin | hin
    · exact h part ip hin o t hclaim
    · cases List.mem_singleton.mp hin
      have hclaim : w.aich.claimOn part = some (o, t) := hclaim
      rw [hclaim] at hown
      exact Option.some.inj hown
  | done hpass =>
    rw [AichState.claimOn_done] at hclaim
    split_ifs at hclaim
    exact h part ip (List.mem_of_mem_eraseIdx hin) o t hclaim
  | rejected => cases hclaim
  | abandoned => exact h part ip (List.mem_of_mem_eraseIdx hin) o t hclaim
  | localized bad =>
    exact h part ip hin o t (((AichState.localize_static bad w.aich).2 part).symm.trans hclaim)

theorem ownersApply_run {w w' : AichWorld} {ops : List AichOp} (h : OwnersApply w)
    (hrun : w.run ops = some w') (hok : Throughout Undisturbed w ops) : OwnersApply w' := by
  induction ops generalizing w with
  | nil =>
    cases hrun
    exact h
  | cons op ops ih =>
    obtain ⟨v, hv, hrun⟩ := Option.bind_eq_some_iff.mp hrun
    exact ih (ownersApply_step h hv hok.1) hrun (hok.2 v hv)

/-! ## Trust in a root -/

/-- A vote counts for one root for good, and it was cast; a root is trusted through votes only
    with enough /20s and a large enough share, and at most one root has them; while votes
    count, only the first report of each /20 matters; a root that came with the file yields
    only to a proof that it is wrong, and after such a proof none is trusted. A claim goes to
    a source that last reported the trusted root, and only where no fresh claim is; it ends
    as `Ends` says, and the answer that ends it is its owner's if no claim on the part is
    granted while an answer for it is being applied. -/
theorem aich_root_trust {ops : List AichOp} {w : AichWorld} (h : start.run ops = some w) :
    ((∀ ops' w' k r r', w.run ops' = some w' → k ∈ signers w.aich.votes r →
        k ∈ signers w'.aich.votes r' → r' = r) ∧
      (∀ k r, k ∈ signers w.aich.votes r → ∃ ip, (ip, r) ∈ reports ops ∧ aichVoteKey ip = k) ∧
      (w.aich.status = .trusted → ∀ r, w.aich.aichTrustedRoot = some r →
        Wins AICH_MIN_UNIQUE_IPS AICH_MIN_PERCENT w.aich.votes r) ∧
      ∀ r r', Wins AICH_MIN_UNIQUE_IPS AICH_MIN_PERCENT w.aich.votes r →
        Wins AICH_MIN_UNIQUE_IPS AICH_MIN_PERCENT w.aich.votes r' → r = r') ∧
    (∀ ops' w', start.run ops' = some w' → w.aich.Voting → w'.aich.Voting →
      (∀ k, (ballots ops).lookup k = (ballots ops').lookup k) →
        w.aich.aichTrustedRoot = w'.aich.aichTrustedRoot) ∧
    (∀ ops' w', w.run ops' = some w' → (∀ root, AichOp.verifyRoot root ∉ ops') →
      (w.aich.status = .verified → (w'.aich.status = .verified ∧ w'.aich.master = w.aich.master) ∨
        (w'.aich.status = .error ∧ ∃ k, .applied k true ∈ ops')) ∧
      (w.aich.status = .error → w'.aich.status = .error ∧ w'.aich.aichTrustedRoot = none)) ∧
    (∀ ip size now order part root a,
      w.aich.claimAichRecovery ip size now order = some ((part, root), a) →
        w.aich.aichTrustedRoot = some root ∧ lastReport ops ip = some root ∧
        ∀ o t, w.aich.claimOn part = some (o, t) → AICH_CLAIM_STALE_SECS < now - t) ∧
    (∀ op w', w.step op = some w' → ∀ part o t, w.aich.claimOn part = some (o, t) →
      w'.aich.claimOn part = some (o, t) ∨ Ends w part o t op) ∧
    (Throughout Undisturbed start ops → ∀ part ip, (part, ip) ∈ w.applying →
      ∀ o t, w.aich.claimOn part = some (o, t) → o = ip) := by
  have hsound : Sound ops w := sound_start.run h
  refine ⟨⟨fun ops' w' k r r' hrun hk hk' => ?_, fun k r hk => ?_, fun hstatus r hroot => ?_,
    fun r r' hr hr' => ?_⟩, fun ops' w' hrun hvoting hvoting' hfirst => ?_,
    fun ops' w' hrun hops => ?_, fun ip size now order part root a hgrant => ?_,
    fun op w' hs part o t hclaim => claim_ends hs hclaim, fun hok => ?_⟩
  · have hbefore := hsound.lookup_append hk ops'
    rw [(hsound.run hrun).lookup hk'] at hbefore
    exact Option.some.inj hbefore
  · obtain ⟨pre, post, hvotes, -⟩ := List.lookup_eq_some_iff.mp (hsound.lookup hk)
    have hmem : (k, r) ∈ ballots ops := hvotes ▸ List.mem_append_right _ (List.mem_cons_self ..)
    obtain ⟨report, hreport, heq⟩ := List.mem_map.mp hmem
    cases heq
    exact ⟨report.1, hreport, rfl⟩
  · have hvoting : w.aich.Voting := by
      unfold AichState.Voting
      rw [hstatus]
      simp
    exact (hsound.follows hvoting r).mp hroot
  · obtain ⟨votes, -, hcounts, -⟩ := hsound.counted
    exact hcounts.wins_unique (by decide) hr hr'
  · exact hsound.trust_congr (sound_start.run hrun) hvoting hvoting' hfirst
  · obtain ⟨hverified, herror⟩ := status_run hrun hops
    refine ⟨hverified, fun he => ⟨herror he, ?_⟩⟩
    rw [AichState.aichTrustedRoot, herror he]
  · obtain ⟨hroot, hreported, hstale, -, -⟩ := AichState.claim_cases hgrant
    exact ⟨hroot, by rw [← hsound.reported]; exact hreported, hstale⟩
  · have howners : OwnersApply start := fun _ _ hin => absurd hin List.not_mem_nil
    exact ownersApply_run howners h hok

end AichWorld

/-! ## A claim that another source's answer ends -/

def rootA : Hash20 := Digest.fill 20 0xA0

/-- Ten sources in ten /20s report one root. -/
def tenReports : List AichOp :=
  (List.range 10).map fun i => .report (.v4 (.ofNat i) 0 0 1) rootA [rootA]

/-- Two parts are bad, and the first two sources are each asked about one. -/
def twoClaims : List AichOp :=
  tenReports ++ [.localize [(0, []), (1, [])], .claim (.v4 0 0 0 1) (2 * PARTSIZE) 100 [0, 1],
    .claim (.v4 1 0 0 1) (2 * PARTSIZE) 100 [0, 1]]

/-- Ten reports make the root trusted, and the two claims stand. -/
theorem ten_reports_trusted :
    ∃ w : AichWorld, AichWorld.start.run twoClaims = some w ∧ w.aich.status = .trusted ∧
      Wins AICH_MIN_UNIQUE_IPS AICH_MIN_PERCENT w.aich.votes rootA ∧
      lastReport twoClaims (.v4 0 0 0 1) = some rootA := by
  have hrun : (AichWorld.start.run twoClaims).map (fun w =>
      (w.aich.status, w.aich.aichTrustedRoot, w.aich.reported.lookup (.v4 0 0 0 1),
        w.aich.claimOn 0)) =
      some (.trusted, some rootA, some rootA, some (.v4 0 0 0 1, 100)) := by decide +kernel
  obtain ⟨w, hw, hres⟩ := Option.map_eq_some_iff.mp hrun
  have hstatus : w.aich.status = .trusted := congrArg Prod.fst hres
  have hroot : w.aich.aichTrustedRoot = some rootA := congrArg (fun r => r.2.1) hres
  have hreport : lastReport twoClaims (.v4 0 0 0 1) = some rootA := by decide +kernel
  exact ⟨w, hw, hstatus, (AichWorld.aich_root_trust hw).1.2.2.1 hstatus rootA hroot, hreport⟩

/-- The first source's answer proves the root wrong: the second one's claim, just made, is
    gone, though it has neither answered nor failed. -/
theorem claim_ended_by_another :
    ∃ w w' : AichWorld, AichWorld.start.run (twoClaims ++ [.answer 0 rootA (.v4 0 0 0 1)]) = some w ∧
      w.step (.applied 0 true) = some w' ∧ w.applying = [(0, .v4 0 0 0 1)] ∧
      w.aich.claimOn 1 = some (.v4 1 0 0 1, 100) ∧ w'.aich.claimOn 1 = none := by
  have hrun : (AichWorld.start.run (twoClaims ++ [.answer 0 rootA (.v4 0 0 0 1)])).bind (fun w =>
      (w.step (.applied 0 true)).map fun w' => (w.applying, w.aich.claimOn 1, w'.aich.claimOn 1)) =
      some ([(0, .v4 0 0 0 1)], some (.v4 1 0 0 1, 100), none) := by decide +kernel
  obtain ⟨w, hw, hrun⟩ := Option.bind_eq_some_iff.mp hrun
  obtain ⟨w', hw', hres⟩ := Option.map_eq_some_iff.mp hrun
  exact ⟨w, w', hw, hw', congrArg Prod.fst hres, congrArg (fun r => r.2.1) hres,
    congrArg (fun r => r.2.2) hres⟩

end PadMule.Engine
