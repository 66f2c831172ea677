import PadMule.Engine.Sweep

/-
  `mule-engine/src/fetch.rs`: how many sessions a sweep has open, and where.

  `kept_step` is what holds in every run: the workers bound the sessions that are not parked, the
  permits those that are, past the round budget only new addresses are dialled, and the sweep
  returns when no task is left. One session an address needs more. A worker goes on when the
  oneshot is dropped, with the tail of its task still to run, so that a tail may take away the mark
  of a later session that has parked at the same address; then a later round dials it again.
  `one_session_per_source` says that there is never more than one while no tail does that.
-/

namespace PadMule.Engine.Fetch.Sweep

variable {s s' : Sweep} {cap w i : Nat} {k : Worker} {c : Session} {src : PeerSource}

/-! ## An address is in one place -/

/-- A worker is at a source of this address, or at a session of it. -/
def Holds (sessions : List Session) (k : Worker) (a : SocketAddr) : Prop :=
  match k.phase with
  | .holding src => src.addr = a
  | .watching i => ∃ c, sessions[i]? = some c ∧ c.src.addr = a
  | _ => False

def Busy (s : Sweep) (w : Nat) (a : SocketAddr) : Prop :=
  ∃ k, s.workers[w]? = some k ∧ Holds s.sessions k a

/-- In a round every address is in the queue or with one worker. -/
structure Apart (s : Sweep) : Prop where
  pool : (s.pool.map PeerSource.addr).Nodup
  queued : (s.queue.map PeerSource.addr).Nodup
  apart : ∀ w w' a, s.Busy w a → s.Busy w' a → w = w'
  unqueued : ∀ w a, s.Busy w a → a ∉ s.queue.map PeerSource.addr

theorem busy_of_holding (hw : s.workers[w]? = some k) (hk : k.phase = .holding src) :
    s.Busy w src.addr := by
  refine ⟨k, hw, ?_⟩
  unfold Holds
  rw [hk]

theorem busy_of_watching (hw : s.workers[w]? = some k) (hk : k.phase = .watching i)
    (hi : s.sessions[i]? = some c) : s.Busy w c.src.addr := by
  refine ⟨k, hw, ?_⟩
  unfold Holds
  rw [hk]
  exact ⟨c, hi, rfl⟩

/-- Nobody turns to an address that nobody had. -/
theorem Apart.shrink (h : s.Apart) (hpool : (s'.pool.map PeerSource.addr).Nodup)
    (hqueue : s'.queue.Sublist s.queue) (hbusy : ∀ w a, s'.Busy w a → s.Busy w a) : s'.Apart where
  pool := hpool
  queued := h.queued.sublist (hqueue.map _)
  apart w w' a hw hw' := h.apart w w' a (hbusy w a hw) (hbusy w' a hw')
  unqueued w a hw hmem := h.unqueued w a (hbusy w a hw) (List.map_subset _ hqueue.subset hmem)

/-- A change of one session leaves all at their addresses, -/
theorem busy_set_session (hi : s.sessions[i]? = some c) {c' : Session} (hsrc : c'.src = c.src)
    {k : Worker} {a : SocketAddr} (h : Holds (s.sessions.set i c') k a) :
    Holds s.sessions k a := by
  unfold Holds at h ⊢
  split at h
  · exact h
  · obtain ⟨c₁, hc₁, ha⟩ := h
    rcases Slots.getElem?_set_cases hc₁ with ⟨rfl, rfl⟩ | ⟨-, hc₁⟩
    · exact ⟨c, hi, hsrc ▸ ha⟩
    · exact ⟨c₁, hc₁, ha⟩
  · exact h

/-- and a change of one worker the others. -/
theorem busy_set_worker {k' : Worker} {w' : Nat} {a : SocketAddr} {sessions : List Session}
    (h : ∃ k, (s.workers.set w k')[w']? = some k ∧ Holds sessions k a) :
    w' = w ∧ Holds sessions k' a ∨
      w' ≠ w ∧ ∃ k, s.workers[w']? = some k ∧ Holds sessions k a := by
  obtain ⟨k, hk, hholds⟩ := h
  rcases Slots.getElem?_set_cases hk with ⟨rfl, rfl⟩ | ⟨hne, hk⟩
  · exact .inl ⟨rfl, hholds⟩
  · exact .inr ⟨hne, k, hk, hholds⟩

/-- A worker that turns to nobody. -/
theorem Apart.rest (h : s.Apart) {k' : Worker} (hk' : ∀ a, ¬Holds s.sessions k' a) :
    (s.setWorker w k').Apart := by
  refine h.shrink h.pool (List.Sublist.refl _) fun w' a hbusy => ?_
  exact (busy_set_worker hbusy).elim (fun hself => (hk' a hself.2).elim) And.right

/-- A worker takes the front of the queue. -/
theorem Apart.pop (h : s.Apart) {queue : List PeerSource} (hqueue : s.queue = src :: queue) :
    Apart { s.setWorker w { k with phase := .holding src } with queue } := by
  have hqueued := h.queued
  rw [hqueue, List.map_cons, List.nodup_cons] at hqueued
  have hcases {w' : Nat} {a : SocketAddr}
      (hbusy : Busy { s.setWorker w { k with phase := .holding src } with queue } w' a) :
      w' = w ∧ src.addr = a ∨ w' ≠ w ∧ s.Busy w' a := busy_set_worker hbusy
  have hfront {w' : Nat} (hbusy : s.Busy w' src.addr) : False :=
    h.unqueued w' _ hbusy (hqueue ▸ List.mem_cons_self)
  refine ⟨h.pool, hqueued.2, fun w₁ w₂ a h₁ h₂ => ?_, fun w₁ a h₁ hmem => ?_⟩
  · rcases hcases h₁ with ⟨rfl, rfl⟩ | ⟨-, hold₁⟩ <;>
      rcases hcases h₂ with ⟨rfl, ha⟩ | ⟨-, hold₂⟩
    · rfl
    · exact (hfront hold₂).elim
    · exact (hfront (ha ▸ hold₁)).elim
    · exact h.apart w₁ w₂ a hold₁ hold₂
  · rcases hcases h₁ with ⟨rfl, rfl⟩ | ⟨-, hold₁⟩
    · exact hqueued.1 hmem
    · exact h.unqueued w₁ a hold₁ (hqueue ▸ List.mem_cons_of_mem _ hmem)

/-- The session of a source has its address. -/
theorem Apart.dial (h : s.Apart) (hinv : s.Inv) (hw : s.workers[w]? = some k)
    (hk : k.phase = .holding src) : (s.dial w k src).Apart := by
  refine h.shrink h.pool (List.Sublist.refl _) fun w' a hbusy => ?_
  rcases busy_set_worker hbusy with ⟨rfl, hself⟩ | ⟨-, k₁, hk₁, hholds⟩
  · obtain ⟨c, hc, rfl⟩ := hself
    obtain rfl := Option.some.inj (Slots.getElem?_concat_new.symm.trans hc)
    exact busy_of_holding hw hk
  · refine ⟨k₁, hk₁, ?_⟩
    unfold Holds at hholds ⊢
    split at hholds
    · exact hholds
    · next j hj =>
      obtain ⟨c, hc, ha⟩ := hholds
      obtain ⟨c₁, hc₁, -⟩ := hinv.watching w' k₁ j hk₁ hj
      obtain rfl := Option.some.inj ((Slots.getElem?_concat_old hc₁).symm.trans hc)
      exact ⟨c₁, hc₁, ha⟩
    · exact hholds

theorem Apart.decideSession (h : s.Apart) (hi : s.sessions[i]? = some c) (connected : Bool)
    (parkedTasks : List Nat) : Apart { s.decideSession w k i c connected with parkedTasks } := by
  refine h.shrink h.pool (List.Sublist.refl _) fun w' a hbusy => ?_
  rcases busy_set_worker hbusy with ⟨-, hnone⟩ | ⟨-, k₁, hk₁, hholds⟩
  · exact hnone.elim
  · refine ⟨k₁, hk₁, busy_set_session hi ?_ hholds⟩
    rfl

theorem nodup_addAll {reg : SourceRegistry} {sources : List PeerSource}
    (h : (reg.sources.map PeerSource.addr).Nodup) :
    ((reg.addAll sources).sources.map PeerSource.addr).Nodup := by
  induction sources generalizing reg with
  | nil => exact h
  | cons src rest ih =>
    refine ih ?_
    show ((reg.add src).1.sources.map PeerSource.addr).Nodup
    unfold SourceRegistry.add
    split_ifs with hknown
    · exact h
    · rw [List.map_append, List.map_singleton, List.nodup_append]
      refine ⟨h, List.nodup_singleton _, fun a ha a' ha' heq => hknown ?_⟩
      obtain ⟨e, he, rfl⟩ := List.mem_map.mp ha
      rw [List.any_eq_true]
      exact ⟨e, he, decide_eq_true (heq.trans (List.mem_singleton.mp ha'))⟩

theorem Apart.launch (h : s.Apart) (budgetLeft : Bool) (parallel : Nat)
    {ordered : List PeerSource} (hordered : (ordered.map PeerSource.addr).Nodup) :
    (s.launch budgetLeft parallel ordered).Apart := by
  have hidle {w : Nat} {a : SocketAddr}
      (hbusy : (s.launch budgetLeft parallel ordered).Busy w a) : False := by
    obtain ⟨k, hk, hholds⟩ := hbusy
    obtain rfl := List.eq_of_mem_replicate (List.mem_of_getElem? hk)
    exact hholds
  exact ⟨h.pool, ((List.perm_insertionSort _ _).map _).nodup_iff.mpr hordered,
    fun w w' a hw _ => (hidle hw).elim, fun w a hw => (hidle hw).elim⟩

theorem Apart.head (h : s.Apart) (sx : List SxSource) (found : List PeerSource)
    (prioRounds prioParallel : UInt8) (stopped : Bool) :
    (s.head sx found prioRounds prioParallel stopped).Apart := by
  have hfold : Apart { s with pool := s.foldIn sx found } := { h with pool := nodup_addAll h.pool }
  unfold Sweep.head
  dsimp only
  split_ifs
  · exact { h with }
  · exact { hfold with }
  · exact hfold
  · exact hfold.launch _ _ hfold.pool
  · exact hfold
  · exact hfold.launch _ _ (hfold.pool.sublist (List.filter_sublist.map _))

theorem apart_step (hinv : s.Inv) (h : s.Apart) {e : SweepEvent} (hs : s.step e = some s') :
    s'.Apart := by
  cases stepped hs with
  | head => exact h.head ..
  | rest | skip => exact h.rest fun a hnone => hnone
  | take _ _ hqueue => exact h.pop hqueue
  | dial hw hk => exact h.dial hinv hw hk
  | session hi hmove =>
    obtain ⟨phase, scoreboard, addrs, free, -, rfl⟩ := move_cases hmove
    refine h.shrink h.pool (List.Sublist.refl _) fun w a hbusy => ?_
    obtain ⟨k, hk, hholds⟩ := hbusy
    refine ⟨k, hk, busy_set_session hi ?_ hholds⟩
    rfl
  | joined hwatched => exact h.decideSession (watched_eq_some hwatched).2.2 _ s.parkedTasks
  | released hwatched => exact h.decideSession (watched_eq_some hwatched).2.2 true _
  | endRound =>
    refine h.shrink h.pool (List.Sublist.refl _) fun w a hbusy => ?_
    obtain ⟨k, hk, -⟩ := hbusy
    cases hk
  | drain | lotTaken | lotFreed => exact { h with }

/-! ## What holds in every run -/

/-- The addresses dialled so far, and whether past the round budget. -/
def dials (s : Sweep) : List (SocketAddr × Bool) := s.sessions.map fun c => (c.src.addr, c.late)

/-- The address waits in the queue or in a worker's hand. -/
def Due (s : Sweep) (a : SocketAddr) : Prop :=
  a ∈ s.queue.map PeerSource.addr ∨
    ∃ (w : Nat) (k : Worker) (src : PeerSource), s.workers[w]? = some k ∧
      k.phase = .holding src ∧ src.addr = a

/-- The bounds of a sweep on a lot of `cap` permits. -/
structure Bounded (cap : Nat) (s : Sweep) : Prop where
  unparked : s.sessions.countP Session.unparked ≤ s.parallel
  parked : s.sessions.countP (fun c => c.phase.parked) ≤ cap
  /-- Past the round budget no address is dialled again. -/
  late : s.dials.Pairwise fun d d' => d'.2 = true → d.1 ≠ d'.1
  returned : s.phase = .returned → ∀ c ∈ s.sessions, c.phase.isFinished = true

/-- What carries them. -/
structure Kept (cap : Nat) (s : Sweep) : Prop where
  permits : s.free + s.elsewhere + s.sessions.countP (fun c => c.phase.parked) = cap
  few : s.workers.length ≤ s.parallel
  due : ∀ a, s.Due a → a ∈ s.everDialed
  dialled : ∀ d ∈ s.dials, d.1 ∈ s.everDialed
  fresh : s.budgetLeft = false → ∀ a, s.Due a → ∀ d ∈ s.dials, d.1 ≠ a
  late : s.dials.Pairwise fun d d' => d'.2 = true → d.1 ≠ d'.1
  returned : s.phase = .returned → ∀ c ∈ s.sessions, c.phase.isFinished = true

/-- A session that is open and not parked is one that a worker watches. -/
theorem Inv.unparked_le (h : s.Inv) :
    s.sessions.countP Session.unparked ≤ s.workers.length := by
  have hopen : s.sessions.countP Session.unparked ≤
      s.sessions.countP fun c => c.seen.isNone := by
    refine List.countP_mono_left fun c hc hunparked => ?_
    obtain ⟨i, hi⟩ := List.mem_iff_getElem?.mp hc
    by_contra hseen
    have hdecided := (h.decided i c hi fun hnone => hseen (by rw [hnone]; rfl)).1
    unfold Session.unparked at hunparked
    cases hphase : c.phase <;> rw [hphase] at hdecided hunparked <;> simp_all [
      SessionPhase.resolved, SessionPhase.isOpen, SessionPhase.parked]
  exact hopen.trans (h.counted.trans_le List.countP_le_length)

theorem Kept.bounded (h : s.Kept cap) (hinv : s.Inv) : s.Bounded cap where
  unparked := hinv.unparked_le.trans h.few
  parked := by
    have hpermits := h.permits
    omega
  late := h.late
  returned := h.returned

/-- A permit that is free no more is the session's, and the other way round. -/
theorem PhaseStep.permits {m : SessionMove} {phase : SessionPhase} {addrs : Finset SocketAddr}
    {free : Nat} (h : PhaseStep s c m phase addrs free) :
    free + (if phase.parked then 1 else 0) = s.free + if c.phase.parked then 1 else 0 := by
  cases h with
  | claim h hfree =>
    rw [h]
    simp only [SessionPhase.parked, if_true, Bool.false_eq_true, if_false]
    omega
  | leaveParked h => rcases h with h | h <;> rw [h] <;> rfl
  | connect h | fail h | mark h | send h | leave h | score h | clear h => rw [h]; rfl

theorem Kept.move (h : s.Kept cap) (hi : s.sessions[i]? = some c) {m : SessionMove}
    (hs : s.move i c m = some s') : s'.Kept cap := by
  obtain ⟨phase, scoreboard, addrs, free, hphase, rfl⟩ := move_cases hs
  have hdials : (s.sessions.set i { c with phase }).map (fun c => (c.src.addr, c.late)) =
      s.dials := by
    refine Slots.map_set_of_eq hi ?_
    rfl
  refine
    { permits := ?_, few := h.few, due := h.due, dialled := ?_, fresh := ?_, late := ?_
      returned := fun hp => ?_ }
  · have hcount := Slots.countP_set hi (fun c => c.phase.parked) { c with phase }
    have hfree := hphase.permits
    have hpermits := h.permits
    dsimp only at hcount ⊢
    omega
  · exact fun d hd => h.dialled d (hdials ▸ hd)
  · exact fun hspent a ha d hd => h.fresh hspent a ha d (hdials ▸ hd)
  · exact (congrArg _ hdials).mpr h.late
  · have hfinished := h.returned hp c (List.mem_of_getElem? hi)
    exact absurd (hphase.unfinished.symm.trans hfinished) (by decide)

/-- The addresses in hand and in the queue after one worker has changed. -/
theorem due_set {k' : Worker} {queue : List PeerSource} {a : SocketAddr}
    (h : Due { s with workers := s.workers.set w k', queue } a) :
    a ∈ queue.map PeerSource.addr ∨ (∃ src, k'.phase = .holding src ∧ src.addr = a) ∨
      ∃ (w' : Nat) (k : Worker) (src : PeerSource), w' ≠ w ∧ s.workers[w']? = some k ∧
        k.phase = .holding src ∧ src.addr = a := by
  rcases h with hqueue | ⟨w', k, src, hk, hphase, ha⟩
  · exact .inl hqueue
  · rcases Slots.getElem?_set_cases hk with ⟨-, rfl⟩ | ⟨hne, hk⟩
    · exact .inr (.inl ⟨src, hphase, ha⟩)
    · exact .inr (.inr ⟨w', k, src, hne, hk, hphase, ha⟩)

/-- No address becomes due. -/
theorem Kept.shrink (h : s.Kept cap) {k' : Worker} {queue : List PeerSource}
    (hqueue : queue ⊆ s.queue)
    (hk' : ∀ src, k'.phase = .holding src → s.Due src.addr) :
    Kept cap { s with workers := s.workers.set w k', queue } := by
  have hdue {a : SocketAddr} (ha : Due { s with workers := s.workers.set w k', queue } a) :
      s.Due a := by
    rcases due_set ha with ha | ⟨src, hphase, rfl⟩ | ⟨w', k, src, -, hk, hphase, ha⟩
    · exact .inl (List.map_subset _ hqueue ha)
    · exact hk' src hphase
    · exact .inr ⟨w', k, src, hk, hphase, ha⟩
  refine { h with few := ?_, due := fun a ha => h.due a (hdue ha), fresh := ?_ }
  · show (s.workers.set w k').length ≤ _
    rw [List.length_set]
    exact h.few
  · exact fun hspent a ha d hd => h.fresh hspent a (hdue ha) d hd

/-- What a worker makes of its session is not seen here. -/
theorem Kept.decideSession (h : s.Kept cap) (hi : s.sessions[i]? = some c) (connected : Bool)
    (parkedTasks : List Nat) :
    Kept cap { s.decideSession w k i c connected with parkedTasks } := by
  have hdials : (s.sessions.set i { c with seen := some connected }).map
      (fun c => (c.src.addr, c.late)) = s.dials := by
    refine Slots.map_set_of_eq hi ?_
    rfl
  have hshrink : Kept cap (s.setWorker w
      ⟨.looking, k.tried, if connected then k.connected + 1 else k.connected⟩) :=
    h.shrink (List.Subset.refl _) fun src hsrc => (by cases hsrc)
  refine { hshrink with permits := ?_, dialled := ?_, fresh := ?_, late := ?_
                        returned := fun hp c' hc' => ?_ }
  · have hcount : (s.sessions.set i { c with seen := some connected }).countP
        (fun c => c.phase.parked) = s.sessions.countP fun c => c.phase.parked :=
      Nat.add_right_cancel (Slots.countP_set hi _ _)
    exact (congrArg _ hcount).trans h.permits
  · exact fun d hd => h.dialled d (hdials ▸ hd)
  · exact fun hspent a ha d hd => hshrink.fresh hspent a ha d (hdials ▸ hd)
  · exact (congrArg _ hdials).mpr h.late
  · rcases List.mem_or_eq_of_mem_set hc' with hc' | rfl
    · exact h.returned hp c' hc'
    · exact h.returned hp c (List.mem_of_getElem? hi)

/-- A dial is to an address that was due and is so no more. -/
theorem Kept.dial (h : s.Kept cap) (hinv : s.Inv) (hapart : s.Apart)
    (hw : s.workers[w]? = some k) (hk : k.phase = .holding src) : (s.dial w k src).Kept cap := by
  have hheld : s.Due src.addr := .inr ⟨w, k, src, hw, hk, rfl⟩
  have hbusy : s.Busy w src.addr := busy_of_holding hw hk
  have hdials : (s.dial w k src).dials = s.dials ++ [(src.addr, !s.budgetLeft)] :=
    List.map_append
  have hdue {a : SocketAddr} (ha : (s.dial w k src).Due a) : s.Due a ∧ src.addr ≠ a := by
    rcases due_set ha with ha | ⟨_, hphase, -⟩ | ⟨w', k', src', hne, hk', hphase, ha⟩
    · exact ⟨.inl ha, fun heq => hapart.unqueued w _ hbusy (heq ▸ ha)⟩
    · cases hphase
    · refine ⟨.inr ⟨w', k', src', hk', hphase, ha⟩, fun heq => hne ?_⟩
      exact hapart.apart w' w src.addr (heq ▸ ha ▸ busy_of_holding hk' hphase) hbusy
  refine
    { permits := ?_, few := ?_, due := fun a ha => h.due a (hdue ha).1, dialled := ?_, fresh := ?_
      late := ?_, returned := fun hp => ?_ }
  · have hpermits := h.permits
    show s.free + s.elsewhere + (s.sessions ++ [_]).countP _ = cap
    rw [List.countP_append, List.countP_singleton]
    exact hpermits
  · show (s.workers.set w _).length ≤ _
    rw [List.length_set]
    exact h.few
  · rw [hdials]
    intro d hd
    rcases List.mem_append.mp hd with hd | hd
    · exact h.dialled d hd
    · obtain rfl := List.mem_singleton.mp hd
      exact h.due _ hheld
  · rw [hdials]
    intro hspent a ha d hd
    rcases List.mem_append.mp hd with hd | hd
    · exact h.fresh hspent a (hdue ha).1 d hd
    · obtain rfl := List.mem_singleton.mp hd
      exact (hdue ha).2
  · rw [hdials, List.pairwise_append]
    refine ⟨h.late, List.pairwise_singleton _ _, fun d hd d' hd' hlate => ?_⟩
    obtain rfl := List.mem_singleton.mp hd'
    refine h.fresh ?_ _ hheld d hd
    simpa using hlate
  · rw [hinv.idle (by rw [show s.phase = .returned from hp]; decide)] at hw
    cases hw

/-- A round is over sources that are on record from now on, and past the budget over new ones. -/
theorem Kept.launch (h : s.Kept cap) (budgetLeft : Bool) (parallel : Nat)
    {ordered : List PeerSource}
    (hnew : budgetLeft = false → ∀ src ∈ ordered, src.addr ∉ s.everDialed) :
    (s.launch budgetLeft parallel ordered).Kept cap := by
  have hdue {a : SocketAddr} (ha : (s.launch budgetLeft parallel ordered).Due a) :
      ∃ src ∈ ordered, src.addr = a := by
    rcases ha with ha | ⟨w, k, src, hk, hphase, -⟩
    · obtain ⟨src, hsrc, rfl⟩ := List.mem_map.mp ha
      exact ⟨src, (List.mem_insertionSort _).mp hsrc, rfl⟩
    · obtain rfl := List.eq_of_mem_replicate (List.mem_of_getElem? hk)
      cases hphase
  refine
    { permits := h.permits, few := (List.length_replicate ..).le
      due := fun a ha => ?_, dialled := fun d hd => Finset.mem_union_left _ (h.dialled d hd)
      fresh := fun hspent a ha d hd heq => ?_, late := h.late, returned := fun hp => by cases hp }
  · obtain ⟨src, hsrc, rfl⟩ := hdue ha
    exact Finset.mem_union_right _ (List.mem_toFinset.mpr (List.mem_map_of_mem hsrc))
  · obtain ⟨src, hsrc, rfl⟩ := hdue ha
    exact hnew hspent src hsrc (heq ▸ h.dialled d hd)

theorem Kept.head (h : s.Kept cap) (sx : List SxSource)
    (found : List PeerSource) (prioRounds prioParallel : UInt8) (stopped : Bool) :
    (s.head sx found prioRounds prioParallel stopped).Kept cap := by
  have hfold : Kept cap { s with pool := s.foldIn sx found } := { h with }
  unfold Sweep.head
  dsimp only
  split_ifs with hstop hend hbudget hempty hempty
  · exact { h with returned := fun hp => by cases hp }
  · exact { h with returned := fun hp => by cases hp }
  · exact hfold
  · exact hfold.launch _ _ fun hspent => absurd (hbudget.symm.trans hspent) (by decide)
  · exact hfold
  · refine hfold.launch _ _ fun _ src hsrc => ?_
    exact of_decide_eq_true (List.mem_filter.mp hsrc).2

theorem kept_step (hinv : s.Inv) (hapart : s.Apart) (h : s.Kept cap) {e : SweepEvent}
    (hs : s.step e = some s') : s'.Kept cap := by
  cases stepped hs with
  | head => exact h.head ..
  | rest | skip => exact h.shrink (List.Subset.refl _) fun src hsrc => (by cases hsrc)
  | take _ _ hqueue =>
    refine h.shrink (hqueue ▸ List.subset_cons_self _ _) fun src' hsrc => .inl ?_
    cases hsrc
    rw [hqueue]
    exact List.mem_cons_self
  | dial hw hk => exact h.dial hinv hapart hw hk
  | session hi hmove => exact h.move hi hmove
  | joined hwatched => exact h.decideSession (watched_eq_some hwatched).2.2 _ s.parkedTasks
  | released hwatched => exact h.decideSession (watched_eq_some hwatched).2.2 true _
  | endRound =>
    have hdue {a : SocketAddr} (ha : Due { s with workers := [] } a) : s.Due a := by
      refine ha.imp_right ?_
      rintro ⟨w, k, src, hk, -⟩
      cases hk
    exact { h with
      few := Nat.zero_le _
      due := fun a ha => h.due a (hdue ha)
      fresh := fun hspent a ha => h.fresh hspent a (hdue ha)
      returned := fun hp => by cases hp }
  | drain hphase hawaited => exact { h with returned := fun _ => hinv.returned hphase hawaited }
  | lotTaken hfree =>
    have hpermits := h.permits
    exact { h with permits := by dsimp only; omega }
  | lotFreed helsewhere =>
    have hpermits := h.permits
    exact { h with permits := by dsimp only; omega }

/-! ## One session an address -/

/-- No two open sessions are at the same address. -/
def OnePerSource (s : Sweep) : Prop :=
  ∀ (i j : Nat) (c c' : Session), s.sessions[i]? = some c → s.sessions[j]? = some c' →
    c.phase.isOpen = true → c'.phase.isOpen = true → c.src.addr = c'.src.addr → i = j

/-- The tail of a task takes away no mark but its own. -/
def Tidy (s : Sweep) : SweepEvent → Prop
  | .session i .clear => ∀ c r, s.sessions[i]? = some c → c.phase = .scored r →
      ∀ c' ∈ s.sessions, c'.phase.holdsMark = true → c'.src.addr ≠ c.src.addr
  | _ => True

/-- Where a session is parked the address is marked. -/
structure Marked (s : Sweep) : Prop where
  marks : ∀ c ∈ s.sessions, c.phase.holdsMark = true → c.src.addr ∈ s.addrs
  one : s.OnePerSource

/-- A session moves on, and the marks with it. -/
theorem Marked.set (h : s.Marked) (hi : s.sessions[i]? = some c) {c' : Session}
    (hsessions : s'.sessions = s.sessions.set i c') (hsrc : c'.src = c.src)
    (hopen : c'.phase.isOpen = true → c.phase.isOpen = true)
    (hmark : c'.phase.holdsMark = true → c.src.addr ∈ s'.addrs)
    (hothers : ∀ x ∈ s.sessions, x.phase.holdsMark = true → x.src.addr ∈ s'.addrs) :
    s'.Marked where
  marks x hx hholds := by
    rw [hsessions] at hx
    rcases List.mem_or_eq_of_mem_set hx with hx | rfl
    · exact hothers x hx hholds
    · exact hsrc ▸ hmark hholds
  one j₁ j₂ c₁ c₂ h₁ h₂ hopen₁ hopen₂ haddr := by
    have hold {j : Nat} {x : Session} (hx : s'.sessions[j]? = some x)
        (hopened : x.phase.isOpen = true) :
        ∃ y, s.sessions[j]? = some y ∧ y.phase.isOpen = true ∧ y.src = x.src := by
      rw [hsessions] at hx
      rcases Slots.getElem?_set_cases hx with ⟨rfl, rfl⟩ | ⟨-, hx⟩
      · exact ⟨c, hi, hopen hopened, hsrc.symm⟩
      · exact ⟨x, hx, hopened, rfl⟩
    obtain ⟨y₁, hy₁, hyopen₁, hysrc₁⟩ := hold h₁ hopen₁
    obtain ⟨y₂, hy₂, hyopen₂, hysrc₂⟩ := hold h₂ hopen₂
    exact h.one j₁ j₂ y₁ y₂ hy₁ hy₂ hyopen₁ hyopen₂ (by rw [hysrc₁, hysrc₂, haddr])

theorem Marked.move (h : s.Marked) (hi : s.sessions[i]? = some c) {m : SessionMove}
    (htidy : s.Tidy (.session i m)) (hs : s.move i c m = some s') : s'.Marked := by
  obtain ⟨phase, scoreboard, addrs, free, hphase, rfl⟩ := move_cases hs
  have hmem := List.mem_of_getElem? hi
  cases hphase with
  | connect hold | claim hold =>
    refine h.set hi rfl rfl (fun _ => ?_) (fun hholds => ?_) h.marks
    · rw [hold]
      rfl
    · cases hholds
  | fail hold | leave hold | leaveParked hold | score hold =>
    refine h.set hi rfl rfl (fun hopen => ?_) (fun hholds => ?_) h.marks
    · cases hopen
    · cases hholds
  | mark hold =>
    refine h.set hi rfl rfl (fun _ => ?_) (fun _ => Finset.mem_insert_self _ _)
      fun x hx hholds => Finset.mem_insert_of_mem (h.marks x hx hholds)
    rw [hold]
    rfl
  | send hold =>
    refine h.set hi rfl rfl (fun _ => ?_) (fun _ => h.marks c hmem ?_) h.marks
    · rw [hold]
      rfl
    · rw [hold]
      rfl
  | clear hold =>
    refine h.set hi rfl rfl (fun hopen => ?_) (fun hholds => ?_) fun x hx hholds =>
      Finset.mem_erase.mpr ⟨htidy c _ hi hold x hx hholds, h.marks x hx hholds⟩
    · cases hopen
    · cases hholds

/-- Where an address is not marked, no session of it is open but one that a worker watches. -/
theorem Marked.dial (h : s.Marked) (hinv : s.Inv) (hapart : s.Apart)
    (hw : s.workers[w]? = some k) (hk : k.phase = .holding src) (hfree : src.addr ∉ s.addrs) :
    (s.dial w k src).Marked := by
  have hbusy : s.Busy w src.addr := busy_of_holding hw hk
  have hnone {j : Nat} {x : Session} (hx : s.sessions[j]? = some x)
      (hopen : x.phase.isOpen = true) (haddr : x.src.addr = src.addr) : False := by
    have hunmarked : ¬x.phase.holdsMark = true := fun hholds =>
      hfree (haddr ▸ h.marks x (List.mem_of_getElem? hx) hholds)
    have hunresolved : ¬x.phase.resolved = true := by
      cases hphase : x.phase <;> rw [hphase] at hopen hunmarked <;>
        simp_all [SessionPhase.isOpen, SessionPhase.holdsMark, SessionPhase.resolved]
    have hseen : x.seen = none := by
      by_contra hseen
      exact hunresolved (hinv.decided j x hx hseen).1
    obtain ⟨w', k', hk', hj⟩ := hinv.watched j x hx hseen
    have hsame : w' = w :=
      hapart.apart w' w src.addr (haddr ▸ busy_of_watching hk' hj hx) hbusy
    subst hsame
    obtain rfl := Option.some.inj (hw.symm.trans hk')
    cases hk.symm.trans hj
  refine ⟨fun x hx hholds => ?_, fun j₁ j₂ c₁ c₂ h₁ h₂ hopen₁ hopen₂ haddr => ?_⟩
  · rcases List.mem_append.mp hx with hx | hx
    · exact h.marks x hx hholds
    · obtain rfl := List.mem_singleton.mp hx
      cases hholds
  · rcases Slots.getElem?_concat_cases h₁ with h₁ | ⟨rfl, rfl⟩ <;>
      rcases Slots.getElem?_concat_cases h₂ with h₂ | ⟨rfl, rfl⟩
    · exact h.one j₁ j₂ c₁ c₂ h₁ h₂ hopen₁ hopen₂ haddr
    · exact (hnone h₁ hopen₁ haddr).elim
    · exact (hnone h₂ hopen₂ haddr.symm).elim
    · rfl

theorem Marked.congr (h : s.Marked) (hsessions : s'.sessions = s.sessions)
    (haddrs : s'.addrs = s.addrs) : s'.Marked := by
  refine ⟨?_, ?_⟩
  · rw [hsessions, haddrs]
    exact h.marks
  · unfold OnePerSource
    rw [hsessions]
    exact h.one

theorem marked_step (hinv : s.Inv) (hapart : s.Apart) (h : s.Marked) {e : SweepEvent}
    (htidy : s.Tidy e) (hs : s.step e = some s') : s'.Marked := by
  cases stepped hs with
  | @head sx found prioRounds prioParallel stopped =>
    obtain ⟨hsessions, haddrs⟩ := s.head_same sx found prioRounds prioParallel stopped
    exact h.congr hsessions haddrs
  | rest | take | skip | endRound | drain | lotTaken | lotFreed => exact h.congr rfl rfl
  | dial hw hk hfree => exact h.dial hinv hapart hw hk hfree
  | session hi hmove => exact h.move hi htidy hmove
  | @joined _ _ _ c _ hwatched | @released _ _ _ c hwatched =>
    obtain ⟨-, -, hi⟩ := watched_eq_some hwatched
    exact h.set hi rfl rfl id (h.marks c (List.mem_of_getElem? hi)) h.marks

theorem apart_start (config : ManagerConfig) (ipFilter : Option IpFilter)
    {sources : List PeerSource} (hsources : (sources.map PeerSource.addr).Nodup)
    (free elsewhere : Nat) : (start config ipFilter sources free elsewhere).Apart := by
  refine ⟨hsources, List.nodup_nil, fun w w' a hw _ => ?_, fun w a _ => List.not_mem_nil⟩
  obtain ⟨k, hk, -⟩ := hw
  cases hk

theorem kept_start (config : ManagerConfig) (ipFilter : Option IpFilter)
    (sources : List PeerSource) (free elsewhere : Nat) :
    (start config ipFilter sources free elsewhere).Kept (free + elsewhere) where
  permits := rfl
  few := le_rfl
  due a ha := by
    rcases ha with ha | ⟨w, k, src, hk, -⟩
    · exact absurd ha List.not_mem_nil
    · cases hk
  dialled _ hd := absurd hd List.not_mem_nil
  fresh _ _ _ _ hd := absurd hd List.not_mem_nil
  late := List.Pairwise.nil
  returned hp := by cases hp

theorem marked_start (config : ManagerConfig) (ipFilter : Option IpFilter)
    (sources : List PeerSource) (free elsewhere : Nat) :
    (start config ipFilter sources free elsewhere).Marked :=
  ⟨fun _ hc => absurd hc List.not_mem_nil, fun _ _ _ _ hc => by cases hc⟩

/-- A sweep over sources with different addresses keeps to its bounds in every run, and has never
    two sessions open at one address in a run in which no tail takes away the mark of another
    session. -/
theorem one_session_per_source (config : ManagerConfig) (ipFilter : Option IpFilter)
    {sources : List PeerSource} (hsources : (sources.map PeerSource.addr).Nodup)
    (free elsewhere : Nat) (events : List SweepEvent) :
    Runs.Always step (Bounded (free + elsewhere))
        (start config ipFilter sources free elsewhere) events ∧
      (Runs.Throughout step Tidy (start config ipFilter sources free elsewhere) events →
        Runs.Always step OnePerSource (start config ipFilter sources free elsewhere) events) := by
  have hinv := inv_start config ipFilter sources free elsewhere
  have hapart := apart_start config ipFilter hsources free elsewhere
  constructor
  · refine Runs.always_induct (fun s e s' h hs => ?_)
      (fun s (h : s.Inv ∧ s.Apart ∧ s.Kept (free + elsewhere)) => h.2.2.bounded h.1)
      ⟨hinv, hapart, kept_start ..⟩ events
    exact ⟨inv_step h.1 hs, apart_step h.1 h.2.1 hs, kept_step h.1 h.2.1 h.2.2 hs⟩
  · refine Runs.always_of_throughout (fun s e s' h htidy hs => ?_)
      (fun s (h : s.Inv ∧ s.Apart ∧ s.Marked) => h.2.2.one) ⟨hinv, hapart, marked_start ..⟩
    exact ⟨inv_step h.1 hs, apart_step h.1 h.2.1 hs, marked_step h.1 h.2.1 h.2.2 htidy hs⟩

/-- A source that is dialled. -/
def peer : PeerSource := ⟨.v4 0x08080808 4662, none, none, .server⟩

/-- One round of one worker in which the source is dialled. -/
def dialRound : List SweepEvent :=
  [.head [] [] 1 1 false, .look 0 false, .check 0 false]

/-- The worker goes on, and the round ends. -/
def nextRound : List SweepEvent := [.released 0, .look 0 false, .endRound]

/-- The session gets its permit, its mark, and lets its worker go. -/
def parks (i : Nat) : List SweepEvent :=
  [.session i .connect, .session i .claim, .session i .mark, .session i .send]

/-- A session that parks in the first round is not dialled again in the second. -/
theorem one_session_per_source_parked :
    Runs.Always step OnePerSource (start (.fixed 1 8) none [peer] 20 0)
      (dialRound ++ parks 0 ++ nextRound ++ dialRound) := by
  refine (one_session_per_source (.fixed 1 8) none (by decide) 20 0 _).2 ?_
  repeat' first | exact trivial | refine ⟨trivial, fun _ _ => ?_⟩

/-- The session of the first round has let its worker go before its tail has run. The one of the
    second round parks; the tail of the first takes its mark away, and the third round dials the
    address again. -/
theorem stale_tail_reopens_source : ([peer].map PeerSource.addr).Nodup ∧
    ¬Runs.Always step OnePerSource (start (.fixed 1 8) none [peer] 20 0)
      (dialRound ++ [.session 0 .connect, .session 0 (.leave 0)] ++ nextRound ++ dialRound ++
        parks 1 ++ nextRound ++ [.session 0 .score, .session 0 .clear] ++ dialRound) := by
  refine ⟨by decide, fun h => ?_⟩
  have hlast := h.run rfl
  exact absurd (hlast 1 2 _ _ rfl rfl rfl rfl rfl) (by decide)

end PadMule.Engine.Fetch.Sweep
