import PadMule.Engine.Sweep

/-
  `mule-engine/src/fetch.rs`: what `FetchOutcome` says of a sweep.

  A worker counts a session as connected when its task says so, and also when the oneshot is over.
  The oneshot is over too when a failed dial drops it, with the task not yet joined.
  `outcome_counts`: a sweep that returns has tried as many sources as it dialled, and its
  `peers_connected` is the number of dials that got through exactly when no worker left a failed
  dial by the oneshot.
-/

namespace PadMule.Engine.Fetch

/-- The connect and the handshake went through. -/
def Session.handshook (c : Session) : Bool :=
  match c.phase with
  | .dialing => false
  | .returned r | .scored r | .finished r => r.isSome
  | _ => true

/-- Where it was counted it did get through. -/
def Session.CountedRight (c : Session) : Prop := c.seen = some true → c.handshook = true

namespace Sweep

variable {s s' : Sweep} {w i : Nat} {k : Worker} {c : Session}

/-- What the workers and the outcome have counted, against the sessions. -/
structure Counted (s : Sweep) : Prop where
  tried : s.sourcesTried + (s.workers.map Worker.tried).sum = s.sessions.length
  connected : s.peersConnected + (s.workers.map Worker.connected).sum =
    s.sessions.countP fun c => c.seen = some true
  /-- A session that was not counted did not get through. -/
  failed : ∀ c ∈ s.sessions, c.seen = some false → c.handshook = false

def Truthful (s : Sweep) : Prop := ∀ c ∈ s.sessions, c.CountedRight

/-- A worker that leaves a session by the oneshot leaves one that got through. -/
def LeavesConnected (s : Sweep) : SweepEvent → Prop
  | .released w => ∀ x, s.watched w = some x → x.2.2.handshook = true
  | _ => True

/-- Nothing that a resolved session still does changes how its dial went. -/
theorem PhaseStep.handshook {m : SessionMove} {phase : SessionPhase} {addrs : Finset SocketAddr}
    {free : Nat} (h : PhaseStep s c m phase addrs free) (hpast : c.phase.resolved = true) :
    Session.handshook { c with phase } = c.handshook := by
  unfold Session.handshook
  cases h with
  | connect h | fail h | claim h | mark h | leave h =>
    rw [h] at hpast
    cases hpast
  | send h | score h | clear h => rw [h]
  | leaveParked h =>
    rcases h with h | h
    · rw [h] at hpast
      cases hpast
    · rw [h]
      rfl

/-! ## Sessions -/

/-- A session that has moved on is as true as it was. -/
theorem moved_handshook (h : s.Inv) (hi : s.sessions[i]? = some c) {m : SessionMove}
    {phase : SessionPhase} {addrs : Finset SocketAddr} {free : Nat}
    (hphase : PhaseStep s c m phase addrs free) (hseen : c.seen ≠ none) :
    Session.handshook { c with phase } = c.handshook :=
  hphase.handshook (h.decided i c hi hseen).1

theorem Counted.move (h : s.Counted) (hinv : s.Inv) (hi : s.sessions[i]? = some c)
    {m : SessionMove} (hs : s.move i c m = some s') : s'.Counted := by
  obtain ⟨phase, scoreboard, addrs, free, hphase, rfl⟩ := move_cases hs
  refine { tried := ?_, connected := ?_, failed := ?_ }
  · exact h.tried.trans List.length_set.symm
  · refine h.connected.trans ?_
    exact (Nat.add_right_cancel (Slots.countP_set hi _ { c with phase })).symm
  · obtain ⟨hold, hrest⟩ := (Slots.forall_iff hi).mp h.failed
    refine (Slots.forall_set hi).mpr ⟨fun hseen => ?_, hrest⟩
    rw [moved_handshook hinv hi hphase (by rw [hseen]; simp)]
    exact hold hseen

theorem truthful_move (hinv : s.Inv) (hi : s.sessions[i]? = some c) {m : SessionMove}
    (hs : s.move i c m = some s') : s'.Truthful ↔ s.Truthful := by
  obtain ⟨phase, scoreboard, addrs, free, hphase, rfl⟩ := move_cases hs
  have hsame : Session.CountedRight { c with phase } ↔ c.CountedRight :=
    forall_congr' fun hseen => by
      rw [moved_handshook hinv hi hphase (by rw [show c.seen = some true from hseen]; simp)]
  unfold Truthful
  rw [Slots.forall_set hi, Slots.forall_iff hi, hsame]

/-! ## Workers -/

/-- A worker decides: what it counts is what it says of its session. -/
theorem Counted.decideSession (h : s.Counted) (hinv : s.Inv) (hw : s.workers[w]? = some k)
    (hk : k.phase = .watching i) (hi : s.sessions[i]? = some c) {connected : Bool}
    (hfailed : connected = false → c.handshook = false) (parkedTasks : List Nat) :
    Counted { s.decideSession w k i c connected with parkedTasks } := by
  obtain ⟨c', hc', hnone⟩ := hinv.watching w k i hw hk
  obtain rfl := Option.some.inj (hi.symm.trans hc')
  have htried := Slots.sum_map_set hw Worker.tried
    ⟨.looking, k.tried, if connected then k.connected + 1 else k.connected⟩
  have hconnected := Slots.sum_map_set hw Worker.connected
    ⟨.looking, k.tried, if connected then k.connected + 1 else k.connected⟩
  have hcount := Slots.countP_set hi (fun c => decide (c.seen = some true))
    { c with seen := some connected }
  have hold := h.connected
  refine { tried := ?_, connected := ?_, failed := ?_ }
  · show s.sourcesTried + ((s.workers.set w _).map Worker.tried).sum =
      (s.sessions.set i _).length
    rw [Nat.add_right_cancel htried, List.length_set]
    exact h.tried
  · show s.peersConnected + ((s.workers.set w _).map Worker.connected).sum =
      (s.sessions.set i _).countP _
    cases connected <;> simp [hnone] at hconnected hcount ⊢ <;> omega
  · obtain ⟨-, hrest⟩ := (Slots.forall_iff hi).mp h.failed
    refine (Slots.forall_set hi).mpr ⟨fun hseen => ?_, hrest⟩
    exact hfailed (Option.some.inj hseen)

theorem truthful_decideSession (hinv : s.Inv) (hw : s.workers[w]? = some k)
    (hk : k.phase = .watching i) (hi : s.sessions[i]? = some c) (connected : Bool)
    (parkedTasks : List Nat) :
    Truthful { s.decideSession w k i c connected with parkedTasks } ↔
      s.Truthful ∧ (connected = true → c.handshook = true) := by
  obtain ⟨c', hc', hnone⟩ := hinv.watching w k i hw hk
  obtain rfl := Option.some.inj (hi.symm.trans hc')
  have hold : c.CountedRight := fun hseen => by cases hnone.symm.trans hseen
  have hnew : Session.CountedRight { c with seen := some connected } ↔
      (connected = true → c.handshook = true) := by
    unfold Session.CountedRight
    rw [Option.some.injEq]
    rfl
  unfold Truthful
  rw [Slots.forall_iff hi, and_iff_right hold, and_comm, ← hnew]
  exact Slots.forall_set hi

/-- A worker that neither dials nor decides counts nothing. -/
theorem Counted.rest (h : s.Counted) (hw : s.workers[w]? = some k) (phase : WorkerPhase)
    (queue : List PeerSource) :
    Counted { s with workers := s.workers.set w { k with phase }, queue } := by
  have hsame {f : Worker → Nat} (hf : f { k with phase } = f k) :
      (s.workers.set w { k with phase }).map f = s.workers.map f := Slots.map_set_of_eq hw hf
  refine { tried := ?_, connected := ?_, failed := h.failed }
  · exact (congrArg (fun l => s.sourcesTried + l.sum) (hsame rfl)).trans h.tried
  · exact (congrArg (fun l => s.peersConnected + l.sum) (hsame rfl)).trans h.connected

theorem Counted.dial (h : s.Counted) (hw : s.workers[w]? = some k) (src : PeerSource) :
    (s.dial w k src).Counted := by
  have htried := Slots.sum_map_set hw Worker.tried
    { k with phase := .watching s.sessions.length, tried := k.tried + 1 }
  have hconnected := Slots.sum_map_set hw Worker.connected
    { k with phase := .watching s.sessions.length, tried := k.tried + 1 }
  have hold := h.tried
  refine { tried := ?_, connected := ?_, failed := ?_ }
  · show s.sourcesTried + ((s.workers.set w _).map Worker.tried).sum = (s.sessions ++ [_]).length
    rw [List.length_append, List.length_singleton]
    dsimp only at htried
    omega
  · show s.peersConnected + ((s.workers.set w _).map Worker.connected).sum =
      (s.sessions ++ [_]).countP _
    rw [Nat.add_right_cancel hconnected, List.countP_append]
    exact h.connected
  · intro c hc hseen
    rcases List.mem_append.mp hc with hc | hc
    · exact h.failed c hc hseen
    · obtain rfl := List.mem_singleton.mp hc
      cases hseen

theorem truthful_dial (src : PeerSource) : (s.dial w k src).Truthful ↔ s.Truthful := by
  refine List.forall_mem_append.trans (and_iff_left fun c hc hseen => ?_)
  obtain rfl := List.mem_singleton.mp hc
  cases hseen

/-! ## Rounds -/

theorem Counted.launch (h : s.Counted) (hworkers : s.workers = []) (budgetLeft : Bool)
    (parallel : Nat) (ordered : List PeerSource) :
    (s.launch budgetLeft parallel ordered).Counted := by
  have hzero {f : Worker → Nat} (hf : f ⟨.looking, 0, 0⟩ = 0) :
      ((List.replicate parallel ⟨.looking, 0, 0⟩).map f).sum = (s.workers.map f).sum := by
    rw [List.map_replicate, hf, List.sum_replicate, hworkers]
    rfl
  refine { tried := ?_, connected := ?_, failed := h.failed }
  · exact (congrArg (s.sourcesTried + ·) (hzero rfl)).trans h.tried
  · exact (congrArg (s.peersConnected + ·) (hzero rfl)).trans h.connected

theorem Counted.head (h : s.Counted) (hworkers : s.workers = []) (sx : List SxSource)
    (found : List PeerSource) (prioRounds prioParallel : UInt8) (stopped : Bool) :
    (s.head sx found prioRounds prioParallel stopped).Counted := by
  have hfold : Counted { s with pool := s.foldIn sx found } := { h with }
  unfold Sweep.head
  dsimp only
  split_ifs
  · exact { h with }
  · exact { h with }
  · exact hfold
  · exact hfold.launch hworkers _ _ _
  · exact hfold
  · exact hfold.launch hworkers _ _ _

theorem Counted.endRound (h : s.Counted) :
    Counted { s with
      phase := .head, workers := []
      sourcesTried := s.sourcesTried + (s.workers.map Worker.tried).sum
      peersConnected := s.peersConnected + (s.workers.map Worker.connected).sum } where
  tried := h.tried
  connected := h.connected
  failed := h.failed

/-! ## Steps -/

theorem counted_step (hinv : s.Inv) (h : s.Counted) {e : SweepEvent} (hs : s.step e = some s') :
    s'.Counted := by
  cases stepped hs with
  | head hphase => exact h.head (hinv.idle (by rw [hphase]; decide)) ..
  | rest hw => exact h.rest hw .over s.queue
  | @take _ _ _ src queue hw => exact h.rest hw (.holding src) queue
  | skip hw => exact h.rest hw .looking s.queue
  | dial hw => exact h.dial hw _
  | session hi hmove => exact h.move hinv hi hmove
  | joined hwatched hr =>
    obtain ⟨hw, hphase, hi⟩ := watched_eq_some hwatched
    refine h.decideSession hinv hw hphase hi (fun hnone => ?_) s.parkedTasks
    unfold Session.handshook
    rw [hr]
    exact hnone
  | released hwatched =>
    obtain ⟨hw, hphase, hi⟩ := watched_eq_some hwatched
    refine h.decideSession hinv hw hphase hi (fun hnone => ?_) _
    cases hnone
  | endRound => exact h.endRound
  | drain | lotTaken | lotFreed => exact { h with }

/-- The counts of a sweep stay true exactly by the steps that count what got through. -/
theorem truthful_step (hinv : s.Inv) {e : SweepEvent} (hs : s.step e = some s') :
    s'.Truthful ↔ s.Truthful ∧ s.LeavesConnected e := by
  cases stepped hs with
  | @head sx found prioRounds prioParallel stopped =>
    obtain ⟨hsessions, -⟩ := s.head_same sx found prioRounds prioParallel stopped
    unfold Truthful
    rw [hsessions]
    exact (and_iff_left trivial).symm
  | rest | take | skip | endRound | drain | lotTaken | lotFreed =>
    exact (and_iff_left trivial).symm
  | dial => exact (truthful_dial _).trans (and_iff_left trivial).symm
  | session hi hmove => exact (truthful_move hinv hi hmove).trans (and_iff_left trivial).symm
  | @joined _ _ _ c r hwatched hr =>
    obtain ⟨hw, hphase, hi⟩ := watched_eq_some hwatched
    have htold : r.isSome = true → c.handshook = true := by
      unfold Session.handshook
      rw [hr]
      exact id
    refine (truthful_decideSession hinv hw hphase hi _ s.parkedTasks).trans ?_
    rw [and_iff_left htold]
    exact (and_iff_left trivial).symm
  | @released w _ _ _ hwatched =>
    obtain ⟨hw, hphase, hi⟩ := watched_eq_some hwatched
    refine (truthful_decideSession hinv hw hphase hi true _).trans (and_congr_right fun _ => ?_)
    show _ ↔ ∀ x, s.watched w = some x → x.2.2.handshook = true
    rw [hwatched, imp_iff_right rfl]
    exact ⟨fun h x hx => Option.some.inj hx ▸ h, fun h => h _ rfl⟩

theorem counted_start (config : ManagerConfig) (ipFilter : Option IpFilter)
    (sources : List PeerSource) (free elsewhere : Nat) :
    (start config ipFilter sources free elsewhere).Counted where
  tried := rfl
  connected := rfl
  failed _ hc := absurd hc List.not_mem_nil

/-- Between the rounds the outcome is true when every session that was counted got through. -/
theorem Counted.outcome (h : s.Counted) (hinv : s.Inv) (hworkers : s.workers = []) :
    s.sourcesTried = s.sessions.length ∧
      (s.peersConnected = s.sessions.countP Session.handshook ↔ s.Truthful) := by
  obtain ⟨htried, hconnected, hfailed⟩ := h
  rw [hworkers] at htried hconnected
  refine ⟨htried, ?_⟩
  have hseen : ∀ c ∈ s.sessions, c.handshook = true → decide (c.seen = some true) = true := by
    intro c hc hhand
    obtain ⟨i, hi⟩ := List.mem_iff_getElem?.mp hc
    cases hcase : c.seen with
    | none => exact absurd hcase (hinv.all_decided hworkers hi)
    | some connected =>
      cases connected with
      | true => rfl
      | false => exact absurd (hhand.symm.trans (hfailed c hc hcase)) (by decide)
  rw [show s.peersConnected = _ from hconnected, Slots.countP_eq_iff hseen]
  exact forall₂_congr fun c _ => by rw [decide_eq_true_iff]; rfl

/-- A sweep that returns has tried as many sources as it dialled, and says how many dials got
    through exactly when no worker left one that had failed by its oneshot. -/
theorem outcome_counts (config : ManagerConfig) (ipFilter : Option IpFilter)
    (sources : List PeerSource) (free elsewhere : Nat) {events : List SweepEvent}
    (hrun : Runs.run step (start config ipFilter sources free elsewhere) events = some s)
    (hreturned : s.phase = .returned) :
    s.sourcesTried = s.sessions.length ∧
      (s.peersConnected = s.sessions.countP Session.handshook ↔
        Runs.Throughout step LeavesConnected (start config ipFilter sources free elsewhere)
          events) := by
  have hstart := inv_start config ipFilter sources free elsewhere
  have hstep (s : Sweep) (e : SweepEvent) (s' : Sweep) (h : s.Inv ∧ s.Counted)
      (hs : s.step e = some s') : s'.Inv ∧ s'.Counted :=
    ⟨inv_step h.1 hs, counted_step h.1 h.2 hs⟩
  obtain ⟨hinv, hcounted⟩ := Runs.run_induct hstep ⟨hstart, counted_start ..⟩ hrun
  have hworkers : s.workers = [] := hinv.idle (by rw [hreturned]; decide)
  have htruth := Runs.run_iff_throughout (fun _ _ _ hinv => inv_step hinv)
    (fun _ _ _ hinv => truthful_step hinv) hstart hrun
  have hnone : (start config ipFilter sources free elsewhere).Truthful :=
    fun _ hc => absurd hc List.not_mem_nil
  obtain ⟨htried, hconnected⟩ := hcounted.outcome hinv hworkers
  exact ⟨htried, hconnected.trans (htruth.trans (and_iff_right hnone))⟩

def oneSource : List PeerSource := [⟨.v4 0x08080808 4662, none, none, .server⟩]

/-- One worker dials it in the only round, -/
def oneDial : List SweepEvent := [.head [] [] 1 1 false, .look 0 false, .check 0 false]

/-- finds nothing more, and the round ends. -/
def noMore : List SweepEvent := [.look 0 false, .endRound]

/-- A dial that fails is not counted where the worker waits for its task. -/
theorem outcome_counts_joined :
    ∃ s, Runs.run step (start (.fixed 1 1) none oneSource 20 0)
        (oneDial ++ [.session 0 .fail, .session 0 .score, .session 0 .clear, .joined 0] ++
          noMore ++ [.head [] [] 1 1 false, .drain]) = some s ∧
      s.phase = .returned ∧ s.sourcesTried = s.sessions.length ∧
      s.peersConnected = s.sessions.countP Session.handshook := by
  obtain ⟨s, hrun, hreturned⟩ : ∃ s, Runs.run step (start (.fixed 1 1) none oneSource 20 0)
      (oneDial ++ [.session 0 .fail, .session 0 .score, .session 0 .clear, .joined 0] ++
        noMore ++ [.head [] [] 1 1 false, .drain]) = some s ∧ s.phase = .returned :=
    ⟨_, rfl, rfl⟩
  obtain ⟨htried, hiff⟩ := outcome_counts (.fixed 1 1) none oneSource 20 0 hrun hreturned
  refine ⟨s, hrun, hreturned, htried, hiff.mpr ?_⟩
  repeat' first | exact trivial | refine ⟨trivial, fun _ _ => ?_⟩

/-- The task of a failed dial has dropped its oneshot and is not over. The worker takes that for a
    park: one peer connected, and no handshake. -/
theorem failed_dial_counts_connected :
    ∃ s, Runs.run step (start (.fixed 1 1) none oneSource 20 0)
        (oneDial ++ [.session 0 .fail, .released 0] ++ noMore ++
          [.session 0 .score, .session 0 .clear, .head [] [] 1 1 false, .drain]) = some s ∧
      s.phase = .returned ∧ s.peersConnected = 1 ∧ s.sessions.countP Session.handshook = 0 :=
  ⟨_, rfl, rfl, rfl, rfl⟩

end Sweep

end PadMule.Engine.Fetch
