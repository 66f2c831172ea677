import PadMule.Engine.IdentityProof
import PadMule.Engine.ServePackets

/-
  `mule-engine/src/share.rs`: serve connections around one gate.

  Each connection is a `Serving`; what it does at the gate are steps of `Engine.UploadGate`, so
  connections interleave at every await. The score a waiter queues with is read off the credit
  store of the moment. A connection leaves in two steps: it returns, over a packet, a failed
  write, a timeout or a dropped task, and then its waiter and its permit are dropped.
-/

namespace PadMule.Engine

open PadMule.Proto

structure ServeWorld (κ : Type) where
  gate : GateWorld
  sessions : List (Serving κ)

inductive ServeOp (κ : Type) where
  | connect (args : ServeArgs) (sec : Option (ServeSec κ)) (writes reads : Nat)
  | packet (i : Nat) (pkt : Packet) (env : Surroundings)
  | tryGrant (i : Nat)
  | enqueue (i : Nat) (store : CreditStore)
  | arm (i : Nat)
  | check (i : Nat)
  | weigh (i : Nat)
  | release (i : Nat)
  | hangUp (i : Nat)
  | finish (i : Nat)
  | notify

/-- The session a handler leaves, whether it goes on or returns. -/
def settle {σ : Type} : Except σ σ → σ
  | .ok s => s
  | .error s => s

theorem Leads.settle {σ : Type} {p : σ → Prop} {m : Except σ σ} (h : Leads p p m) :
    p (settle m) := by
  cases m with
  | ok s => exact h
  | error s => exact h

variable {κ : Type} (R : Rsa κ) (disk : Disk) (ratio : UInt64 → UInt64 → Nat)

namespace ServeWorld

def new (slotsTotal queueCap : Nat) : ServeWorld κ := ⟨.new slotsTotal queueCap, []⟩

/-- Session `i`, if it is in this phase. -/
def sessionIn (w : ServeWorld κ) (i : Nat) (phase : ServePhase) : Option (Serving κ) :=
  w.sessions[i]?.filter (·.phase = phase)

def put (w : ServeWorld κ) (gate : GateWorld) (i : Nat) (s : Serving κ) : ServeWorld κ :=
  ⟨gate, w.sessions.set i s⟩

/-- `enqueue`: the waiter is told its rank, or the connection is closed. -/
def enqueue (w : ServeWorld κ) (i : Nat) (s : Serving κ) (scoreKey : Nat) :
    Option (ServeWorld κ) :=
  match w.gate.gate.enqueue scoreKey with
  | none => some (w.put w.gate i s.quit)
  | some ((key, rank), _) =>
    (w.gate.step (.enqueue scoreKey)).map fun gate =>
      let waiter := { s with phase := .waiting key }
      w.put gate i (settle (waiter.send (.queueRanking (.ofNat (min rank 65535)))))

/-- A timeout, a closed connection, a dropped task. A future is not dropped while it is polled. -/
def hangUp (w : ServeWorld κ) (i : Nat) (s : Serving κ) : Option (ServeWorld κ) :=
  match s.phase with
  | .returning _ | .over => none
  | .waiting key => (w.gate.step (.leave key)).map fun _ => w.put w.gate i s.quit
  | _ => some (w.put w.gate i s.quit)

/-- The waiter is dropped, then the permit. -/
def finish (w : ServeWorld κ) (i : Nat) (s : Serving κ) : Option (ServeWorld κ) :=
  match s.phase with
  | .returning (some key) =>
    (w.gate.step (.leave key)).map fun gate => w.put gate i { s with phase := .returning none }
  | .returning none =>
    (if s.permit then w.gate.step .release else some w.gate).map fun gate =>
      w.put gate i { s with permit := false, phase := .over }
  | _ => none

def step (w : ServeWorld κ) : ServeOp κ → Option (ServeWorld κ)
  | .connect args sec writes reads =>
    some { w with sessions := w.sessions ++ [.opened args sec writes reads] }
  | .packet i pkt env =>
    (w.sessionIn i .ready).map fun s => w.put w.gate i (settle (s.onPacket R disk env pkt))
  | .tryGrant i =>
    (w.sessionIn i .wanting).bind fun s =>
      (w.gate.step .tryGrant).map fun gate =>
        w.put gate i (if w.gate.gate.tryGrant.isSome then settle s.takePermit
          else { s with phase := .queueing })
  | .enqueue i store =>
    (w.sessionIn i .queueing).bind fun s =>
      w.enqueue i s (leecherScoreKey ratio store s.args.credit s.sec)
  | .arm i =>
    w.sessions[i]?.bind fun s =>
      match s.phase with
      | .waiting key => (w.gate.step (.arm key)).map fun gate => w.put gate i s
      | _ => none
  | .check i =>
    w.sessions[i]?.bind fun s =>
      match s.phase with
      | .waiting key =>
        (w.gate.step (.check key)).map fun gate =>
          w.put gate i (if (w.gate.gate.takeSlot key).isSome then settle s.takePermit else s)
      | _ => none
  | .weigh i =>
    (w.sessionIn i .deciding).map fun s =>
      w.put w.gate i
        (if 0 < w.gate.gate.waiting then settle s.revoke else { s with phase := .ready })
  | .release i =>
    (w.sessionIn i .revoking).bind fun s =>
      (w.gate.step .release).map fun gate =>
        w.put gate i { s with permit := false, recentlySent := [], phase := .queueing }
  | .hangUp i => w.sessions[i]?.bind (w.hangUp i)
  | .finish i => w.sessions[i]?.bind (w.finish i)
  | .notify => (w.gate.step .notify).map fun gate => { w with gate := gate }

end ServeWorld

/-! ## What a step can do to a session -/

/-- What every move of a session keeps, and the blocks it sends. -/
structure Moved (disk : Disk) (s s' : Serving κ) : Prop where
  ok : s.Ok disk → s'.Ok disk
  args : s'.args = s.args
  new : ∃ new, s'.log = s.log ++ new ∧ BlocksOf disk s new

section Moves

variable {disk} {s : Serving κ}

theorem blocksOf_nil : BlocksOf disk s [] := fun _ _ _ _ h => absurd h List.not_mem_nil

theorem blocksOf_reply {r : ServeReply} (h : (ServeEffect.sent r).range = none) :
    BlocksOf disk s [.sent r] := by
  intro hash start stop data hmem
  rw [← List.mem_singleton.mp hmem] at h
  cases h

/-- A move that sends nothing. -/
theorem Moved.silent {s' : Serving κ} (hok : s.Ok disk → s'.Ok disk) (hargs : s'.args = s.args)
    (hlog : s'.log = s.log) : Moved disk s s' :=
  ⟨hok, hargs, [], by rw [hlog, List.append_nil], blocksOf_nil⟩

theorem Moved.quit (hlive : s.phase ≠ .over) : Moved disk s s.quit :=
  .silent (fun h => h.quit hlive) rfl rfl

theorem Moved.onPacket (h : s.Ok disk) (hready : s.phase = .ready) (env : Surroundings)
    (pkt : Packet) : Moved disk s (settle (s.onPacket R disk env pkt)) ∧
      (settle (s.onPacket R disk env pkt)).permit = s.permit := by
  have hgone := (leads_onPacket R h hready env pkt).settle
  exact ⟨⟨fun _ => hgone.ok, hgone.since.args, hgone.since.new⟩, hgone.since.permit⟩

/-- A session that asked for a slot has it, and says so if it can. -/
theorem Moved.takePermit (hasking : s.phase.Asking) :
    Moved disk s (settle s.takePermit) ∧ (settle s.takePermit).permit = true := by
  unfold Serving.takePermit Serving.send
  split_ifs
  · refine ⟨.silent (fun h => ?_) rfl rfl, rfl⟩
    exact {
      log := h.log
      file := h.file
      gated := fun _ => h.asking hasking
      bare := fun hb => by rcases hb with hb | hb <;> cases hb
      asking := False.elim
      ending := fun hb => by rcases hb with hb | hb <;> cases hb
      slot := False.elim
      recent := False.elim
      held := fun _ _ _ => rfl
      revoked := fun hrev => by cases hrev }
  · refine ⟨⟨fun h => ?_, rfl, _, rfl, blocksOf_reply rfl⟩, rfl⟩
    have hsteady : s.phase.Steady := by
      match hphase : s.phase with
      | .wanting | .queueing | .waiting _ => trivial
      | .ready | .deciding => trivial
      | .revoking | .returning _ | .over =>
        rw [hphase] at hasking
        exact hasking.elim
    exact {
      log := h.log.concat rfl fun _ _ _ => ServeEffect.noConfusion
      file := h.file
      gated := fun _ => h.asking hasking
      bare := fun hb => by rcases hb with hb | hb <;> cases hb
      asking := False.elim
      ending := fun hb => by rcases hb with hb | hb <;> cases hb
      slot := fun _ _ => ServeLog.granted_accept s.log
      recent := fun _ => (h.recent hsteady).trans
        (congrArg (·.rtake DEDUP_DEPTH) (ServeLog.slotRanges_accept s.log).symm)
      held := fun _ _ _ => rfl
      revoked := fun hrev => by cases hrev }

theorem Moved.turn (hsteady : s.phase.Steady) {phase : ServePhase} (hsteady' : phase.Steady)
    (hbare : phase.Asking → s.phase.Asking) (hending : phase ≠ .deciding) :
    Moved disk s { s with phase := phase } :=
  .silent (fun h => h.turn hsteady hsteady'
    (fun hasking => ⟨h.bare (.inl (hbare hasking)), h.asking (hbare hasking)⟩)
    fun hdec => absurd hdec hending) rfl rfl

/-- The rank goes out, and the session waits under its key. -/
theorem Moved.wait (hqueueing : s.phase = .queueing) (key : WaiterKey) (rank : UInt16) :
    Moved disk s (settle (Serving.send { s with phase := .waiting key } (.queueRanking rank))) ∧
      (settle (Serving.send { s with phase := .waiting key } (.queueRanking rank))).permit =
        s.permit := by
  have hasking : s.phase.Asking := by
    rw [hqueueing]
    trivial
  have hsteady : s.phase.Steady := by
    rw [hqueueing]
    trivial
  have hwaiting (h : s.Ok disk) : Serving.Ok disk { s with phase := .waiting key } :=
    h.turn hsteady trivial (fun _ => ⟨h.bare (.inl hasking), h.asking hasking⟩)
      ServePhase.noConfusion
  unfold Serving.send
  split_ifs
  · exact ⟨.silent (fun h => (hwaiting h).quit ServePhase.noConfusion) rfl rfl, rfl⟩
  · refine ⟨⟨fun h => ?_, rfl, _, rfl, blocksOf_reply rfl⟩, rfl⟩
    refine (hwaiting h).withLog _ (h.log.concat rfl fun _ _ _ => ServeEffect.noConfusion) ?_ ?_
    · rw [ServeLog.granted_concat, if_neg (by simp), if_neg (by simp)]
    · rw [ServeLog.slotRanges_concat, if_neg (by simp)]
      exact List.append_nil _

theorem Moved.revoke (hdeciding : s.phase = .deciding) :
    Moved disk s (settle s.revoke) ∧ (settle s.revoke).permit = s.permit := by
  unfold Serving.revoke Serving.send
  split_ifs
  · exact ⟨.quit (by rw [hdeciding]; exact ServePhase.noConfusion), rfl⟩
  · refine ⟨⟨fun h => ?_, rfl, _, rfl, blocksOf_reply rfl⟩, rfl⟩
    obtain ⟨hgranted, hranges⟩ := ServeLog.slots_revoke s.log
    exact {
      log := h.log.concat rfl fun _ _ _ => ServeEffect.noConfusion
      file := h.file
      gated := h.gated
      bare := fun hb => by rcases hb with hb | hb <;> cases hb
      asking := False.elim
      ending := fun _ => h.ending (.inl hdeciding)
      slot := False.elim
      recent := False.elim
      held := fun _ _ hg => by
        rw [show ServeLog.granted (s.log ++ [.sent .outOfPartReqs]) = true from hg] at hgranted
        cases hgranted
      revoked := fun _ => ⟨hgranted, hranges⟩ }

/-- The permit dropped, the session queues again with nothing remembered. -/
theorem Moved.release (hrevoking : s.phase = .revoking) :
    Moved disk s { s with permit := false, recentlySent := [], phase := .queueing } := by
  refine .silent (fun h => ?_) rfl rfl
  obtain ⟨hgranted, hranges⟩ := h.revoked hrevoking
  have hgated : s.args.gated = true := h.gated (h.ending (.inr hrevoking))
  exact {
    log := h.log
    file := h.file
    gated := fun hp => by cases hp
    bare := fun _ => rfl
    asking := fun _ => hgated
    ending := fun hb => by rcases hb with hb | hb <;> cases hb
    slot := fun _ _ => hgranted
    recent := fun _ => by
      show [] = (ServeLog.slotRanges s.log).rtake DEDUP_DEPTH
      rw [hranges]
      rfl
    held := fun _ _ hg => by
      rw [show ServeLog.granted s.log = true from hg] at hgranted
      cases hgranted
    revoked := fun hrev => by cases hrev }

/-- On its way out the session drops its waiter first. -/
theorem Moved.dropWaiter {waiter : Option WaiterKey} (hret : s.phase = .returning waiter) :
    Moved disk s { s with phase := .returning none } :=
  .silent (fun h => {
    log := h.log
    file := h.file
    gated := h.gated
    bare := fun hb => by rcases hb with hb | hb <;> cases hb
    asking := False.elim
    ending := fun hb => by rcases hb with hb | hb <;> cases hb
    slot := False.elim
    recent := False.elim
    held := fun _ => h.held (by rw [hret]; exact ServePhase.noConfusion)
    revoked := fun hrev => by cases hrev }) rfl rfl

theorem Moved.finish : Moved disk s { s with permit := false, phase := .over } :=
  .silent (fun h => {
    log := h.log
    file := h.file
    gated := fun hp => by cases hp
    bare := fun _ => rfl
    asking := False.elim
    ending := fun hb => by rcases hb with hb | hb <;> cases hb
    slot := False.elim
    recent := False.elim
    held := fun hover => absurd rfl hover
    revoked := fun hrev => by cases hrev }) rfl rfl

end Moves

/-! ## Guards and permits -/

/-- What a step at the gate does to the number of guards. -/
theorem GateWorld.guards_of_step {g g' : GateWorld} {op : GateOp} (h : g.step op = some g') :
    match op with
    | .tryGrant => g'.guards = g.guards + (g.gate.tryGrant.isSome).toNat
    | .check key => g'.guards = g.guards + (g.gate.takeSlot key).isSome.toNat
    | .release => g'.guards + 1 = g.guards
    | _ => g'.guards = g.guards := by
  cases op with
  | tryGrant =>
    simp only [GateWorld.step] at h
    split at h <;> cases h <;> simp [*]
  | enqueue scoreKey =>
    simp only [GateWorld.step] at h
    split at h <;> cases h <;> rfl
  | arm key =>
    simp only [GateWorld.step] at h
    split at h <;> cases h <;> rfl
  | check key =>
    simp only [GateWorld.step] at h
    split at h
    · split at h <;> cases h <;> simp [*, GateWorld.park]
    · cases h
  | release =>
    simp only [GateWorld.step] at h
    split_ifs at h with hnone
    cases h
    simp only
    omega
  | leave key =>
    simp only [GateWorld.step] at h
    split at h <;> cases h <;> rfl
  | notify =>
    simp only [GateWorld.step] at h
    split_ifs at h
    cases h
    rfl

namespace ServeWorld

/-- Everything a step can do: at most one session moves, and the guards follow its permit. -/
inductive Stepped (w : ServeWorld κ) : ServeWorld κ → Prop where
  | connected (args : ServeArgs) (sec : Option (ServeSec κ)) (writes reads : Nat) :
    Stepped w { w with sessions := w.sessions ++ [.opened args sec writes reads] }
  | moved {i : Nat} {s s' : Serving κ} (gate : GateWorld) (hs : w.sessions[i]? = some s)
      (hgate : gate = w.gate ∨ ∃ op, w.gate.step op = some gate)
      (hmoved : s.Ok disk → Moved disk s s' ∧
        gate.guards + s.permit.toNat = w.gate.guards + s'.permit.toNat) :
    Stepped w (w.put gate i s')
  | notified {gate : GateWorld} (hgate : w.gate.step .notify = some gate) :
    Stepped w { w with gate := gate }

section Step

variable {disk} {w w' : ServeWorld κ}

theorem of_sessionIn {i : Nat} {phase : ServePhase} {s : Serving κ}
    (h : w.sessionIn i phase = some s) : w.sessions[i]? = some s ∧ s.phase = phase := by
  obtain ⟨hs, hphase⟩ := Option.filter_eq_some_iff.mp h
  exact ⟨hs, of_decide_eq_true hphase⟩

/-- A move that leaves the permit and the guards alone. -/
theorem Stepped.still {i : Nat} {s s' : Serving κ} {gate : GateWorld}
    (hs : w.sessions[i]? = some s) (hgate : gate = w.gate ∨ ∃ op, w.gate.step op = some gate)
    (hguards : gate.guards = w.gate.guards) (hmoved : Moved disk s s')
    (hpermit : s'.permit = s.permit) : Stepped disk w (w.put gate i s') :=
  .moved gate hs hgate fun _ => ⟨hmoved, by rw [hguards, hpermit]⟩

/-- A move of a session that asked for a slot and gets it. -/
theorem Stepped.taken {i : Nat} {s : Serving κ} {gate : GateWorld} {op : GateOp}
    (hs : w.sessions[i]? = some s) (hgate : w.gate.step op = some gate)
    (hguards : gate.guards = w.gate.guards + 1) (hasking : s.phase.Asking) :
    Stepped disk w (w.put gate i (settle s.takePermit)) := by
  obtain ⟨hmoved, hpermit⟩ : Moved disk s (settle s.takePermit) ∧ _ := Moved.takePermit hasking
  refine .moved gate hs (.inr ⟨op, hgate⟩) fun h => ⟨hmoved, ?_⟩
  rw [hpermit, h.bare (.inl hasking), hguards]
  rfl

theorem step_cases {op : ServeOp κ} (h : w.step R disk ratio op = some w') :
    Stepped disk w w' := by
  cases op with
  | connect args sec writes reads =>
    cases h
    exact .connected args sec writes reads
  | packet i pkt env =>
    obtain ⟨s, hs, rfl⟩ := Option.map_eq_some_iff.mp h
    obtain ⟨hs, hready⟩ := of_sessionIn hs
    refine .moved w.gate hs (.inl rfl) fun hok => ?_
    obtain ⟨hmoved, hpermit⟩ := Moved.onPacket R hok hready env pkt
    exact ⟨hmoved, by rw [hpermit]⟩
  | tryGrant i =>
    obtain ⟨s, hs, h⟩ := Option.bind_eq_some_iff.mp h
    obtain ⟨gate, hgate, rfl⟩ := Option.map_eq_some_iff.mp h
    obtain ⟨hs, hwanting⟩ := of_sessionIn hs
    have hguards := GateWorld.guards_of_step hgate
    simp only at hguards
    split_ifs with hgrant
    · rw [hgrant] at hguards
      exact .taken hs hgate hguards (by rw [hwanting]; trivial)
    · rw [Bool.not_eq_true] at hgrant
      rw [hgrant] at hguards
      refine .still hs (.inr ⟨_, hgate⟩) hguards
        (.turn ?_ trivial ?_ ServePhase.noConfusion) rfl <;> rw [hwanting]
      · trivial
      · exact fun _ => trivial
  | enqueue i store =>
    obtain ⟨s, hs, h⟩ := Option.bind_eq_some_iff.mp h
    obtain ⟨hs, hqueueing⟩ := of_sessionIn hs
    unfold ServeWorld.enqueue at h
    split at h
    · cases h
      exact .still hs (.inl rfl) rfl (.quit (by rw [hqueueing]; exact ServePhase.noConfusion)) rfl
    · obtain ⟨gate, hgate, rfl⟩ := Option.map_eq_some_iff.mp h
      obtain ⟨hmoved, hpermit⟩ : Moved disk s _ ∧ _ := Moved.wait hqueueing _ _
      exact .still hs (.inr ⟨_, hgate⟩) (GateWorld.guards_of_step hgate) hmoved hpermit
  | arm i =>
    obtain ⟨s, hs, h⟩ := Option.bind_eq_some_iff.mp h
    split at h
    · obtain ⟨gate, hgate, rfl⟩ := Option.map_eq_some_iff.mp h
      exact .still hs (.inr ⟨_, hgate⟩) (GateWorld.guards_of_step hgate) (.silent id rfl rfl) rfl
    · cases h
  | check i =>
    obtain ⟨s, hs, h⟩ := Option.bind_eq_some_iff.mp h
    split at h
    · rename_i key hwaiting
      obtain ⟨gate, hgate, rfl⟩ := Option.map_eq_some_iff.mp h
      have hguards := GateWorld.guards_of_step hgate
      simp only at hguards
      split_ifs with htook
      · rw [htook] at hguards
        exact .taken hs hgate hguards (by rw [hwaiting]; trivial)
      · rw [Bool.not_eq_true] at htook
        rw [htook] at hguards
        exact .still hs (.inr ⟨_, hgate⟩) hguards (.silent id rfl rfl) rfl
    · cases h
  | weigh i =>
    obtain ⟨s, hs, rfl⟩ := Option.map_eq_some_iff.mp h
    obtain ⟨hs, hdeciding⟩ := of_sessionIn hs
    split_ifs
    · obtain ⟨hmoved, hpermit⟩ : Moved disk s (settle s.revoke) ∧ _ := Moved.revoke hdeciding
      exact .still hs (.inl rfl) rfl hmoved hpermit
    · refine .still hs (.inl rfl) rfl (.turn ?_ trivial False.elim ServePhase.noConfusion) rfl
      rw [hdeciding]
      trivial
  | release i =>
    obtain ⟨s, hs, h⟩ := Option.bind_eq_some_iff.mp h
    obtain ⟨gate, hgate, rfl⟩ := Option.map_eq_some_iff.mp h
    obtain ⟨hs, hrevoking⟩ := of_sessionIn hs
    refine .moved gate hs (.inr ⟨_, hgate⟩) fun hok => ⟨.release hrevoking, ?_⟩
    rw [hok.ending (.inr hrevoking)]
    exact GateWorld.guards_of_step hgate
  | hangUp i =>
    obtain ⟨s, hs, h⟩ := Option.bind_eq_some_iff.mp h
    unfold ServeWorld.hangUp at h
    split at h
    · cases h
    · cases h
    · rename_i key hwaiting
      obtain ⟨gate, -, rfl⟩ := Option.map_eq_some_iff.mp h
      exact .still hs (.inl rfl) rfl (.quit (by rw [hwaiting]; exact ServePhase.noConfusion)) rfl
    · rename_i hover _
      cases h
      exact .still hs (.inl rfl) rfl (.quit hover) rfl
  | finish i =>
    obtain ⟨s, hs, h⟩ := Option.bind_eq_some_iff.mp h
    unfold ServeWorld.finish at h
    split at h
    · rename_i key hret
      obtain ⟨gate, hgate, rfl⟩ := Option.map_eq_some_iff.mp h
      exact .still hs (.inr ⟨_, hgate⟩) (GateWorld.guards_of_step hgate) (.dropWaiter hret) rfl
    · obtain ⟨gate, hgate, rfl⟩ := Option.map_eq_some_iff.mp h
      split_ifs at hgate with hpermit
      · refine .moved gate hs (.inr ⟨_, hgate⟩) fun _ => ⟨.finish, ?_⟩
        rw [hpermit]
        exact GateWorld.guards_of_step hgate
      · cases hgate
        refine .moved w.gate hs (.inl rfl) fun _ => ⟨.finish, ?_⟩
        rw [Bool.not_eq_true] at hpermit
        rw [hpermit]
    · cases h
  | notify =>
    obtain ⟨gate, hgate, rfl⟩ := Option.map_eq_some_iff.mp h
    exact .notified hgate

/-- What every step keeps. -/
structure Ok (disk : Disk) (slotsTotal queueCap : Nat) (w : ServeWorld κ) : Prop where
  gate : GateWorld.Ok slotsTotal queueCap w.gate
  permits : w.gate.guards = w.sessions.countP (·.permit)
  sessions : ∀ s ∈ w.sessions, s.Ok disk

variable {slotsTotal queueCap : Nat}

theorem ok_new : Ok disk slotsTotal queueCap (new slotsTotal queueCap : ServeWorld κ) where
  gate := GateWorld.ok_new slotsTotal queueCap
  permits := rfl
  sessions _ h := absurd h List.not_mem_nil

theorem Ok.step (h : Ok disk slotsTotal queueCap w) {op : ServeOp κ}
    (hstep : w.step R disk ratio op = some w') : Ok disk slotsTotal queueCap w' := by
  cases step_cases R ratio hstep with
  | connected args sec writes reads =>
    refine ⟨h.gate, ?_, fun s hs => ?_⟩
    · rw [List.countP_append, ← h.permits]
      rfl
    · rcases List.mem_append.mp hs with hs | hs
      · exact h.sessions s hs
      · rw [List.mem_singleton.mp hs]
        exact Serving.ok_opened args sec writes reads
  | @moved i s s' gate hs hgate hmoved =>
    obtain ⟨hi, rfl⟩ := List.getElem?_eq_some_iff.mp hs
    have hok := h.sessions _ (List.getElem_mem hi)
    obtain ⟨hmoved, hguards⟩ := hmoved hok
    refine ⟨?_, ?_, fun t ht => ?_⟩
    · rcases hgate with rfl | ⟨op, hop⟩
      · exact h.gate
      · exact h.gate.step hop
    · have hpermits := h.permits
      have hone : (w.sessions[i].permit).toNat ≤ w.sessions.countP (·.permit) := by
        cases hp : w.sessions[i].permit with
        | true => exact List.countP_pos_iff.mpr ⟨_, List.getElem_mem hi, hp⟩
        | false => exact Nat.zero_le _
      have hcount : ∀ b : Bool, (if b = true then 1 else 0) = b.toNat := by decide
      show gate.guards = (w.sessions.set i s').countP (·.permit)
      rw [List.countP_set hi, hcount, hcount]
      omega
    · rcases List.mem_or_eq_of_mem_set ht with ht | rfl
      · exact h.sessions t ht
      · exact hmoved.ok hok
  | notified hgate =>
    exact ⟨h.gate.step hgate, (GateWorld.guards_of_step hgate).trans h.permits, h.sessions⟩

theorem Ok.run (h : Ok disk slotsTotal queueCap w) {ops : List (ServeOp κ)}
    (hrun : Runs.run (ServeWorld.step R disk ratio) w ops = some w') :
    Ok disk slotsTotal queueCap w' :=
  Runs.run_induct (fun _ _ _ hok hstep => hok.step R ratio hstep) h hrun

/-- What a step adds to the log of a session. -/
theorem blocks_of_step (h : Ok disk slotsTotal queueCap w) {op : ServeOp κ}
    (hstep : w.step R disk ratio op = some w') {i : Nat} {s s' : Serving κ}
    (hs : w.sessions[i]? = some s) (hs' : w'.sessions[i]? = some s') :
    ∃ new, s'.log = s.log ++ new ∧ BlocksOf disk s new := by
  have hsame : s' = s → ∃ new, s'.log = s.log ++ new ∧ BlocksOf disk s new := by
    rintro rfl
    exact ⟨[], (List.append_nil _).symm, blocksOf_nil⟩
  obtain ⟨hi, hget⟩ := List.getElem?_eq_some_iff.mp hs
  cases step_cases R ratio hstep with
  | connected args sec writes reads =>
    rw [List.getElem?_append_left hi, hs] at hs'
    exact hsame (Option.some.inj hs').symm
  | @moved j t t' gate ht hgate hmoved =>
    by_cases hji : j = i
    · subst hji
      cases hs.symm.trans ht
      rw [put, List.getElem?_set_self hi] at hs'
      cases hs'
      exact ((hmoved (h.sessions s (hget ▸ List.getElem_mem hi))).1).new
    · rw [put, List.getElem?_set_ne hji, hs] at hs'
      exact hsame (Option.some.inj hs').symm
  | notified hgate =>
    rw [hs] at hs'
    exact hsame (Option.some.inj hs').symm

end Step

end ServeWorld

/-! ## Soundness -/

/-- The connection is between an OP_ACCEPTUPLOADREQ of its own and the next
    OP_OUTOFPARTREQS. -/
def Serving.inInterval (s : Serving κ) : Bool :=
  s.args.gated && s.phase ≠ .over && ServeLog.granted s.log

/-- The uploads a log books in a credit store. -/
def CreditStore.book (store : CreditStore) (log : List ServeEffect) : CreditStore :=
  log.foldl (fun store e =>
    match e with
    | .uploaded userhash n now => store.addUploaded userhash n now
    | _ => store) store

theorem toNat_saturatingAdd (a n : UInt64) :
    (saturatingAdd a n).toNat = min (2 ^ 64 - 1) (a.toNat + n.toNat) := by
  unfold saturatingAdd
  split_ifs with hfits
  · rw [UInt64.toNat_add, Nat.mod_eq_of_lt hfits]
    omega
  · rw [UInt64.toNat_ofNat']
    omega

theorem CreditStore.totals_addUploaded (store : CreditStore) (userhash : Hash16) (n : UInt64)
    (now : UInt32) :
    (store.addUploaded userhash n now).totals userhash =
      (min (2 ^ 64 - 1) ((store.totals userhash).1 + n.toNat), (store.totals userhash).2) := by
  rw [CreditStore.totals, CreditStore.addUploaded, get_withEntry, if_pos rfl, CreditStore.totals]
  cases FileMap.get store.inner userhash with
  | none => simp [totalsOf, toNat_saturatingAdd, Files.CreditEntry.new]
  | some e => simp [totalsOf, toNat_saturatingAdd]

/-- A log that books uploads for one peer adds their sum to its record. -/
theorem CreditStore.totals_book {peer : Hash16} {log : List ServeEffect}
    (h : ∀ userhash n now, .uploaded userhash n now ∈ log → userhash = peer) (store : CreditStore)
    (hfits : (store.totals peer).1 < 2 ^ 64) :
    (store.book log).totals peer =
      (min (2 ^ 64 - 1) ((store.totals peer).1 + ServeLog.credited log),
        (store.totals peer).2) := by
  induction log generalizing store with
  | nil =>
    refine Prod.ext ?_ rfl
    simp only [book, ServeLog.credited, List.map_nil, List.sum_nil, List.foldl_nil]
    omega
  | cons e log ih =>
    have hrest := fun userhash n now hmem => h userhash n now (List.mem_cons_of_mem e hmem)
    cases e with
    | uploaded userhash n now =>
      obtain rfl := h userhash n now List.mem_cons_self
      have htotals := totals_addUploaded store userhash n now
      have hrec := ih hrest (store.addUploaded userhash n now) (by rw [htotals]; simp)
      rw [htotals] at hrec
      refine hrec.trans (Prod.ext ?_ rfl)
      simp only [ServeLog.credited, List.map_cons, List.sum_cons, ServeEffect.credited]
      omega
    | sent r => simpa [ServeLog.credited, ServeEffect.credited, book] using ih hrest store hfits
    | verified key =>
      simpa [ServeLog.credited, ServeEffect.credited, book] using ih hrest store hfits

theorem CreditStore.totals_lt (store : CreditStore) (peer : Hash16) :
    (store.totals peer).1 < 2 ^ 64 := by
  unfold CreditStore.totals
  cases FileMap.get store.inner peer with
  | none => exact Nat.two_pow_pos 64
  | some e => exact e.uploaded.toNat_lt

/-- Over every run, for every connection: blocks go out only between OP_ACCEPTUPLOADREQ and
    OP_OUTOFPARTREQS where there is a gate, no range twice among 64 of one slot session, and the
    credit booked, as the store takes it, is the data sent; the connections in that interval are
    no more than the slots; and every block is what the latched file holds, sent under a permit. -/
theorem serve_shared_sound {slotsTotal queueCap : Nat} {ops : List (ServeOp κ)} {w : ServeWorld κ}
    (hrun : Runs.run (ServeWorld.step R disk ratio) (.new slotsTotal queueCap) ops = some w) :
    (∀ s ∈ w.sessions,
      (s.args.gated = true → ∀ before hash start stop data after,
        s.log = before ++ .sent (.sendingPart hash start stop data) :: after →
          ServeLog.granted before = true) ∧
      (∀ before stretch after, s.log = before ++ stretch ++ after →
        .sent .outOfPartReqs ∉ stretch → ∀ window, window <:+: ServeLog.ranges stretch →
          window.length ≤ 64 → window.Nodup) ∧
      ServeLog.credited s.log = (if s.args.credit.isSome then ServeLog.dataBytes s.log else 0) ∧
      ∀ peer, s.args.credit = some peer → ∀ store : CreditStore,
        (store.book s.log).totals peer =
          (min (2 ^ 64 - 1) ((store.totals peer).1 + ServeLog.dataBytes s.log),
            (store.totals peer).2)) ∧
      w.sessions.countP Serving.inInterval ≤ slotsTotal ∧
      ∀ op w', w.step R disk ratio op = some w' → ∀ (i : Nat) (s s' : Serving κ),
        w.sessions[i]? = some s → w'.sessions[i]? = some s' →
          ∃ new, s'.log = s.log ++ new ∧ ∀ hash start stop data,
            .sent (.sendingPart hash start stop data) ∈ new →
              (s.args.gated = true → s.permit = true) ∧
                ∃ f, s.file = some f ∧ Carries disk s.args.library f hash start stop data := by
  have hok : w.Ok disk slotsTotal queueCap := ServeWorld.ok_new.run R ratio hrun
  refine ⟨fun s hs => ?_, ?_, fun op w' hstep i s s' hs hs' =>
    ServeWorld.blocks_of_step R ratio hok hstep hs hs'⟩
  · have hlog := (hok.sessions s hs).log
    refine ⟨fun hgated before hash start stop data after heq => ?_, ?_, hlog.balanced, ?_⟩
    · exact hlog.placed hgated before _ after heq (by simp [ServeEffect.range])
    · intro before stretch after heq hnone window hwindow hlen
      have hspaced := hlog.fresh (before ++ stretch) after heq
      rw [ServeLog.slotRanges_append before hnone] at hspaced
      have hranges : window <:+: ServeLog.slotRanges before ++ ServeLog.ranges stretch :=
        hwindow.trans (List.suffix_append _ _).isInfix
      exact hspaced.nodup hranges (hlen.trans (Nat.le_succ _))
    · intro peer hpeer store
      have hone (userhash : Hash16) (n : UInt64) (now : UInt32)
          (hmem : .uploaded userhash n now ∈ s.log) : userhash = peer :=
        Option.some.inj ((hlog.peer userhash n now hmem).symm.trans hpeer)
      have hbook := CreditStore.totals_book hone store (store.totals_lt peer)
      rwa [hlog.balanced, hpeer, Option.isSome_some, if_pos rfl] at hbook
  · have hle : w.sessions.countP Serving.inInterval ≤ w.sessions.countP (·.permit) := by
      refine List.countP_mono_left fun s hs hin => ?_
      simp only [Serving.inInterval, Bool.and_eq_true, decide_eq_true_eq] at hin
      exact (hok.sessions s hs).held hin.1.2 hin.1.1 hin.2
    have hslots := hok.gate.slots
    rw [← hok.permits] at hle
    omega

/-! ## An instance -/

/-- Five bytes on disk, shared over one slot. -/
def fiveBytes : SharedFile := ⟨.fill 16 7, 5, [102], [], "f", 0, "", none⟩

def fiveBytesDisk : Disk := fun path => if path = "f" then some [1, 2, 3, 4, 5] else none

/-- A peer names the file, gets the slot and is sent three of the bytes. -/
def threeBytesServed : List (ServeOp UInt8) :=
  let env : Surroundings := ⟨0, 0, [], fun _ _ => none⟩
  [.connect ⟨[fiveBytes], true, 0, some (.fill 16 9), 0, 0, 2, false⟩ none 10 10,
    .packet 0 ⟨PROT_EDONKEY, OP_SETREQFILEID, fiveBytes.hash.bytes⟩ env,
    .packet 0 ⟨PROT_EDONKEY, OP_STARTUPLOADREQ, fiveBytes.hash.bytes⟩ env,
    .tryGrant 0, .packet 0 (buildRequestParts fiveBytes.hash [(1, 4)]) env]

theorem three_bytes_credited :
    ∃ w s, Runs.run (ServeWorld.step tagRsa fiveBytesDisk fun _ _ => CREDIT_MIN_KEY) (.new 1 5)
        threeBytesServed = some w ∧ w.sessions = [s] ∧
      s.log.getLast? = some (.uploaded (.fill 16 9) 3 0) ∧ ServeLog.dataBytes s.log = 3 ∧
      ServeLog.credited s.log = 3 ∧ w.sessions.countP Serving.inInterval ≤ 1 := by
  have hmoves : (Runs.run (ServeWorld.step tagRsa fiveBytesDisk fun _ _ => CREDIT_MIN_KEY)
      (.new 1 5) threeBytesServed).map (fun w =>
        w.sessions.map fun s => (s.log.getLast?, ServeLog.dataBytes s.log, s.args.credit)) =
      some [(some (.uploaded (.fill 16 9) 3 0), 3, some (.fill 16 9))] := by decide +kernel
  obtain ⟨w, hrun, hres⟩ := Option.map_eq_some_iff.mp hmoves
  obtain ⟨s, hs, hlast⟩ := List.map_eq_singleton_iff.mp hres
  obtain ⟨hlast, hrest⟩ := Prod.mk.inj hlast
  obtain ⟨hdata, hcredit⟩ := Prod.mk.inj hrest
  obtain ⟨hsessions, hcount, -⟩ := serve_shared_sound tagRsa fiveBytesDisk _ hrun
  have hbooked := (hsessions s (hs ▸ List.mem_singleton_self s)).2.2.1
  rw [hcredit, Option.isSome_some, if_pos rfl, hdata] at hbooked
  exact ⟨w, s, hrun, hs, hlast, hdata, hbooked, hcount⟩

end PadMule.Engine
