import PadMule.Engine.PeerSources
import PadMule.Engine.PartStore
import PadMule.Lib.Runs
import PadMule.Lib.Slots
import PadMule.Lib.FileMap

/-
  `mule-engine/src/fetch.rs` and `multi_source.rs`: one `download_file`, its workers and its
  sessions.

  A round gives its sources to `parallel` workers. Each dials in a task of its own and waits until
  the task is over or its oneshot is, which is used when the session parks and dropped in any other
  case. A parked session keeps a permit of the lot and its place in `addrs`, and outlives its
  round. What is behind `fetch_one` in a task, the scoreboard and `park.clear`, may run at any
  later time. A return of `fetch_one` is one step: it closes the socket, gives the permit back and
  drops the oneshot. Blocks, bans and what makes a sweep stop are left to the environment.

  `Inv` says who watches which session; `inv_step` is what every step keeps of it.
-/

namespace PadMule.Engine.Fetch

open FileMap

/-! ## Settings and scores -/

def parallelForPriority (priority : UInt8) : Nat :=
  if priority = PR_LOW then 2 else if priority = PR_HIGH then 6 else 4

def roundsForPriority (priority : UInt8) : Nat :=
  if priority = PR_LOW then 6 else if priority = PR_HIGH then 12 else 8

inductive ManagerConfig where
  | fixed (parallel rounds : Nat)
  | byPriority

namespace ManagerConfig

def parallel : ManagerConfig → UInt8 → Nat
  | fixed parallel _, _ => parallel
  | byPriority, priority => parallelForPriority priority

def rounds : ManagerConfig → UInt8 → Nat
  | fixed _ rounds, _ => rounds
  | byPriority, priority => roundsForPriority priority

end ManagerConfig

structure PeerStat where
  bytes : Nat
  sessions : Nat
  fails : Nat

def FAIL_PENALTY : Int := 1000000

abbrev PeerScoreboard := Dir SocketAddr PeerStat

namespace PeerScoreboard

/-- `record` of the bytes that a session delivered, or `record_fail`. -/
def record (b : PeerScoreboard) (addr : SocketAddr) (r : Option Nat) : PeerScoreboard :=
  let e := (get b addr).getD ⟨0, 0, 0⟩
  match r with
  | some bytes => write b addr { e with bytes := e.bytes + bytes, sessions := e.sessions + 1 }
  | none => write b addr { e with fails := e.fails + 1 }

def score (b : PeerScoreboard) (addr : SocketAddr) : Int :=
  match get b addr with
  | none => 0
  | some e => e.bytes - e.fails * FAIL_PENALTY

end PeerScoreboard

/-! ## Sessions and workers -/

inductive SessionPhase where
  | dialing
  | connected
  /-- With a permit of the lot, -/
  | claimed
  /-- its address marked, -/
  | marked
  /-- its worker told. -/
  | sent
  /-- `fetch_one` returned what was delivered, or that it could not even connect, -/
  | returned (r : Option Nat)
  /-- which is on the scoreboard, -/
  | scored (r : Option Nat)
  /-- and the address is free again. -/
  | finished (r : Option Nat)
deriving DecidableEq

namespace SessionPhase

/-- From the dial to the return of `fetch_one`. -/
def isOpen : SessionPhase → Bool
  | dialing | connected | claimed | marked | sent => true
  | _ => false

/-- A permit is held. -/
def parked : SessionPhase → Bool
  | claimed | marked | sent => true
  | _ => false

/-- The address was marked, and the session is still there. -/
def holdsMark : SessionPhase → Bool
  | marked | sent => true
  | _ => false

/-- The oneshot was used or dropped. -/
def resolved : SessionPhase → Bool
  | sent | returned _ | scored _ | finished _ => true
  | _ => false

def isFinished : SessionPhase → Bool
  | finished _ => true
  | _ => false

end SessionPhase

structure Session where
  src : PeerSource
  phase : SessionPhase
  /-- It was dialled past the round budget. -/
  late : Bool
  /-- Whether its worker counted it as connected, once that is decided. -/
  seen : Option Bool
deriving DecidableEq

def Session.unparked (c : Session) : Bool := c.phase.isOpen && !c.phase.parked

inductive WorkerPhase where
  | looking
  | holding (src : PeerSource)
  | watching (session : Nat)
  | over
deriving DecidableEq

structure Worker where
  phase : WorkerPhase
  tried : Nat
  connected : Nat
deriving DecidableEq

/-! ## The sweep -/

inductive MainPhase where
  /-- At the head of the loop over the rounds. -/
  | head
  | sweeping
  | draining
  | returned
deriving DecidableEq

structure Sweep where
  config : ManagerConfig
  ipFilter : Option IpFilter
  pool : List PeerSource
  scoreboard : PeerScoreboard
  /-- The permits of the lot that are free, and those that other sweeps hold. -/
  free : Nat
  elsewhere : Nat
  /-- Where this download is parked. -/
  addrs : Finset SocketAddr
  round : Nat
  everDialed : Finset SocketAddr
  /-- Of the round that runs, or of the last one. -/
  budgetLeft : Bool
  parallel : Nat
  queue : List PeerSource
  workers : List Worker
  /-- All sessions so far. -/
  sessions : List Session
  parkedTasks : List Nat
  phase : MainPhase
  sourcesTried : Nat
  peersConnected : Nat

inductive SessionMove where
  | connect
  | fail
  | claim
  | mark
  | send
  | leave (bytes : Nat)
  | score
  | clear

inductive SweepEvent where
  /-- The head of the loop: what peers and the engine have found meanwhile, the priority at both of
      its reads, and whether the download is over or stopped. -/
  | head (sx : List SxSource) (found : List PeerSource) (prioRounds prioParallel : UInt8)
      (stopped : Bool)
  | look (w : Nat) (stopped : Bool)
  | check (w : Nat) (banned : Bool)
  | session (i : Nat) (m : SessionMove)
  /-- A worker sees that its task is over, -/
  | joined (w : Nat)
  /-- or that the oneshot is. -/
  | released (w : Nat)
  | endRound
  | drain
  /-- Another sweep takes a permit, or gives one back. -/
  | lotTaken
  | lotFreed

namespace Sweep

def start (config : ManagerConfig) (ipFilter : Option IpFilter) (sources : List PeerSource)
    (free elsewhere : Nat) : Sweep :=
  { config, ipFilter, pool := sources, scoreboard := [], free, elsewhere, addrs := ∅, round := 0
    everDialed := ∅, budgetLeft := true, parallel := 0, queue := [], workers := [], sessions := []
    parkedTasks := [], phase := .head, sourcesTried := 0, peersConnected := 0 }

def isFinished (s : Sweep) (i : Nat) : Bool := s.sessions[i]?.any fun c => c.phase.isFinished

def setWorker (s : Sweep) (w : Nat) (k : Worker) : Sweep :=
  { s with workers := s.workers.set w k }

def setSession (s : Sweep) (i : Nat) (c : Session) : Sweep :=
  { s with sessions := s.sessions.set i c }

/-- The pool with what has come in since the last round, one source an address. -/
def foldIn (s : Sweep) (sx : List SxSource) (found : List PeerSource) : List PeerSource :=
  let incoming := sx.filterMap PeerSource.fromSx ++ found
  ((SourceRegistry.mk s.pool).addAll
    (incoming.filter fun src => !blocks s.ipFilter src.addr)).sources

/-- The best scores first. -/
def order (s : Sweep) (sources : List PeerSource) : List PeerSource :=
  sources.insertionSort fun a b => s.scoreboard.score b.addr ≤ s.scoreboard.score a.addr

/-- A round over some sources. -/
def launch (s : Sweep) (budgetLeft : Bool) (parallel : Nat) (ordered : List PeerSource) : Sweep :=
  { s with
    round := if budgetLeft then s.round + 1 else s.round
    everDialed := s.everDialed ∪ (ordered.map PeerSource.addr).toFinset
    budgetLeft, parallel
    queue := s.order ordered
    workers := List.replicate parallel ⟨.looking, 0, 0⟩
    phase := .sweeping }

def head (s : Sweep) (sx : List SxSource) (found : List PeerSource)
    (prioRounds prioParallel : UInt8) (stopped : Bool) : Sweep :=
  let budgetLeft := decide (s.round < max (s.config.rounds prioRounds) 1)
  let parksAlive := s.parkedTasks.any fun i => !s.isFinished i
  if !budgetLeft && !parksAlive then { s with phase := .draining }
  else
    let s := { s with pool := s.foldIn sx found }
    if stopped || (s.pool.isEmpty && !parksAlive) then { s with phase := .draining }
    else
      let ordered :=
        if budgetLeft then s.pool else s.pool.filter fun src => src.addr ∉ s.everDialed
      -- with nothing to dial it waits for the parks
      if ordered.isEmpty then s
      else s.launch budgetLeft (max (s.config.parallel prioParallel) 1) ordered

/-- What the task of a session does next. -/
def move (s : Sweep) (i : Nat) (c : Session) : SessionMove → Option Sweep
  | .connect =>
    if c.phase = .dialing then some (s.setSession i { c with phase := .connected }) else none
  | .fail =>
    if c.phase = .dialing then some (s.setSession i { c with phase := .returned none }) else none
  | .claim =>
    if c.phase = .connected ∧ 0 < s.free then
      some { s.setSession i { c with phase := .claimed } with free := s.free - 1 }
    else none
  | .mark =>
    if c.phase = .claimed then
      some { s.setSession i { c with phase := .marked } with addrs := insert c.src.addr s.addrs }
    else none
  | .send => if c.phase = .marked then some (s.setSession i { c with phase := .sent }) else none
  | .leave bytes =>
    if c.phase = .connected then
      some (s.setSession i { c with phase := .returned (some bytes) })
    else if c.phase = .claimed ∨ c.phase = .sent then
      some { s.setSession i { c with phase := .returned (some bytes) } with free := s.free + 1 }
    else none
  | .score =>
    match c.phase with
    | .returned r =>
      some { s.setSession i { c with phase := .scored r } with
        scoreboard := s.scoreboard.record c.src.addr r }
    | _ => none
  | .clear =>
    match c.phase with
    | .scored r =>
      some { s.setSession i { c with phase := .finished r } with
        addrs := s.addrs.erase c.src.addr }
    | _ => none

/-- The select of a worker is decided. -/
def decideSession (s : Sweep) (w : Nat) (k : Worker) (i : Nat) (c : Session) (connected : Bool) :
    Sweep :=
  (s.setWorker w ⟨.looking, k.tried, if connected then k.connected + 1 else k.connected⟩).setSession
    i { c with seen := some connected }

def look (s : Sweep) (w : Nat) (k : Worker) (stopped : Bool) : Sweep :=
  if stopped then s.setWorker w { k with phase := .over }
  else
    match s.queue with
    | [] => s.setWorker w { k with phase := .over }
    | src :: queue => { s.setWorker w { k with phase := .holding src } with queue }

def dial (s : Sweep) (w : Nat) (k : Worker) (src : PeerSource) : Sweep :=
  { s.setWorker w { k with phase := .watching s.sessions.length, tried := k.tried + 1 } with
    sessions := s.sessions ++ [⟨src, .dialing, !s.budgetLeft, none⟩] }

/-- The session that a worker watches. -/
def watched (s : Sweep) (w : Nat) : Option (Worker × Nat × Session) :=
  s.workers[w]?.bind fun k =>
    match k.phase with
    | .watching i => s.sessions[i]?.map fun c => (k, i, c)
    | _ => none

def step (s : Sweep) : SweepEvent → Option Sweep
  | .head sx found prioRounds prioParallel stopped =>
    if s.phase = .head then some (s.head sx found prioRounds prioParallel stopped) else none
  | .look w stopped =>
    s.workers[w]?.bind fun k => if k.phase = .looking then some (s.look w k stopped) else none
  | .check w banned =>
    s.workers[w]?.bind fun k =>
      match k.phase with
      | .holding src =>
        if banned || src.addr ∈ s.addrs then some (s.setWorker w { k with phase := .looking })
        else some (s.dial w k src)
      | _ => none
  | .session i m => s.sessions[i]?.bind fun c => s.move i c m
  | .joined w =>
    (s.watched w).bind fun (k, i, c) =>
      match c.phase with
      | .finished r => some (s.decideSession w k i c r.isSome)
      | _ => none
  | .released w =>
    (s.watched w).bind fun (k, i, c) =>
      if c.phase.resolved then
        some { s.decideSession w k i c true with parkedTasks := s.parkedTasks ++ [i] }
      else none
  | .endRound =>
    if s.phase = .sweeping ∧ ∀ k ∈ s.workers, k.phase = .over then
      some { s with
        phase := .head, workers := []
        sourcesTried := s.sourcesTried + (s.workers.map Worker.tried).sum
        peersConnected := s.peersConnected + (s.workers.map Worker.connected).sum }
    else none
  | .drain =>
    if s.phase = .draining ∧ ∀ i ∈ s.parkedTasks, s.isFinished i = true then
      some { s with phase := .returned }
    else none
  | .lotTaken =>
    if 0 < s.free then some { s with free := s.free - 1, elsewhere := s.elsewhere + 1 } else none
  | .lotFreed =>
    if 0 < s.elsewhere then some { s with free := s.free + 1, elsewhere := s.elsewhere - 1 }
    else none

end Sweep

/-! ## Who watches whom -/

def Worker.isWatching (k : Worker) : Bool :=
  match k.phase with
  | .watching _ => true
  | _ => false

namespace Sweep

/-- What holds of workers and sessions in every run. -/
structure Inv (s : Sweep) : Prop where
  /-- A worker watches a session that it has not decided, -/
  watching : ∀ (w : Nat) (k : Worker) (i : Nat), s.workers[w]? = some k → k.phase = .watching i →
    ∃ c, s.sessions[i]? = some c ∧ c.seen = none
  /-- which no other one watches, -/
  lone : ∀ (w w' : Nat) (k k' : Worker) (i : Nat), s.workers[w]? = some k →
    s.workers[w']? = some k' → k.phase = .watching i → k'.phase = .watching i → w = w'
  /-- each of these is watched, -/
  watched : ∀ (i : Nat) (c : Session), s.sessions[i]? = some c → c.seen = none →
    ∃ (w : Nat) (k : Worker), s.workers[w]? = some k ∧ k.phase = .watching i
  counted : s.sessions.countP (fun c => c.seen.isNone) = s.workers.countP Worker.isWatching
  /-- and a decided one has left its worker and is awaited. -/
  decided : ∀ (i : Nat) (c : Session), s.sessions[i]? = some c → c.seen ≠ none →
    c.phase.resolved = true ∧ (c.phase.isFinished = false → i ∈ s.parkedTasks)
  idle : s.phase ≠ .sweeping → s.workers = []

variable {s s' : Sweep} {w i : Nat} {k : Worker} {c : Session}

/-- A session moves on; its source and what its worker makes of it stay. -/
theorem Inv.moved (h : s.Inv) (hi : s.sessions[i]? = some c) {c' : Session}
    (hseen : c'.seen = c.seen) (hresolved : c.phase.resolved = true → c'.phase.resolved = true)
    (hfinished : c.phase.isFinished = true → c'.phase.isFinished = true)
    (scoreboard : PeerScoreboard) (addrs : Finset SocketAddr) (free : Nat) :
    Inv { s with sessions := s.sessions.set i c', scoreboard, addrs, free } := by
  refine { h with
    watching := fun w k j hk hj => ?_, watched := fun j c₁ hc₁ hnone => ?_
    counted := ?_, decided := fun j c₁ hc₁ hsome => ?_ }
  · obtain ⟨c₁, hc₁, hnone⟩ := h.watching w k j hk hj
    by_cases hji : j = i
    · subst hji
      obtain rfl := Option.some.inj (hi.symm.trans hc₁)
      exact ⟨c', Slots.getElem?_set_self hi, hseen.trans hnone⟩
    · exact ⟨c₁, (Slots.getElem?_set_ne hji).trans hc₁, hnone⟩
  · rcases Slots.getElem?_set_cases hc₁ with ⟨rfl, rfl⟩ | ⟨-, hc₁⟩
    · exact h.watched j c hi (hseen ▸ hnone)
    · exact h.watched j c₁ hc₁ hnone
  · have hcount := Slots.countP_set hi (fun c => c.seen.isNone) c'
    rw [hseen] at hcount
    exact (Nat.add_right_cancel hcount).trans h.counted
  · rcases Slots.getElem?_set_cases hc₁ with ⟨rfl, rfl⟩ | ⟨-, hc₁⟩
    · obtain ⟨hpast, hawaited⟩ := h.decided j c hi (hseen ▸ hsome)
      refine ⟨hresolved hpast, fun hopen => hawaited ?_⟩
      exact Bool.eq_false_iff.mpr fun hf => Bool.eq_false_iff.mp hopen (hfinished hf)
    · exact h.decided j c₁ hc₁ hsome

/-- A worker that watches nobody turns to something else than a session. -/
theorem Inv.rest (h : s.Inv) (hw : s.workers[w]? = some k) (hk : k.isWatching = false)
    {k' : Worker} (hk' : k'.isWatching = false) (queue : List PeerSource) :
    Inv { s.setWorker w k' with queue } := by
  have hnot {j : Nat} (hj : k'.phase = .watching j) : False := by
    unfold Worker.isWatching at hk'
    rw [hj] at hk'
    cases hk'
  refine
    { watching := fun w₁ k₁ j hk₁ hj => ?_, lone := fun w₁ w₂ k₁ k₂ j hk₁ hk₂ hj₁ hj₂ => ?_
      watched := fun j c₁ hc₁ hopen => ?_, counted := ?_, decided := h.decided
      idle := fun hp => ?_ }
  · rcases Slots.getElem?_set_cases hk₁ with ⟨-, rfl⟩ | ⟨-, hk₁⟩
    · exact (hnot hj).elim
    · exact h.watching w₁ k₁ j hk₁ hj
  · rcases Slots.getElem?_set_cases hk₁ with ⟨-, rfl⟩ | ⟨-, hk₁⟩
    · exact (hnot hj₁).elim
    · rcases Slots.getElem?_set_cases hk₂ with ⟨-, rfl⟩ | ⟨-, hk₂⟩
      · exact (hnot hj₂).elim
      · exact h.lone w₁ w₂ k₁ k₂ j hk₁ hk₂ hj₁ hj₂
  · obtain ⟨w₁, k₁, hk₁, hj⟩ := h.watched j c₁ hc₁ hopen
    refine ⟨w₁, k₁, (Slots.getElem?_set_ne fun heq => ?_).trans hk₁, hj⟩
    subst heq
    obtain rfl := Option.some.inj (hw.symm.trans hk₁)
    unfold Worker.isWatching at hk
    rw [hj] at hk
    cases hk
  · have hcount := Slots.countP_set hw Worker.isWatching k'
    rw [hk, hk'] at hcount
    exact h.counted.trans (Nat.add_right_cancel hcount).symm
  · exact absurd (h.idle hp ▸ hw) (by simp)

/-- The source in a worker's hand is dialled. -/
theorem Inv.dial (h : s.Inv) (hw : s.workers[w]? = some k) {src : PeerSource}
    (hk : k.phase = .holding src) : (s.dial w k src).Inv := by
  have hnew {w₁ : Nat} {k₁ : Worker} (hk₁ : s.workers[w₁]? = some k₁)
      (hj : k₁.phase = .watching s.sessions.length) : False := by
    obtain ⟨c₁, hc₁, -⟩ := h.watching w₁ k₁ _ hk₁ hj
    exact absurd (List.getElem?_eq_some_iff.mp hc₁).1 (lt_irrefl _)
  refine
    { watching := fun w₁ k₁ j hk₁ hj => ?_, lone := fun w₁ w₂ k₁ k₂ j hk₁ hk₂ hj₁ hj₂ => ?_
      watched := fun j c₁ hc₁ hopen => ?_, counted := ?_
      decided := fun j c₁ hc₁ hsome => ?_, idle := fun hp => ?_ }
  · rcases Slots.getElem?_set_cases hk₁ with ⟨-, rfl⟩ | ⟨-, hk₁⟩
    · cases hj
      exact ⟨_, Slots.getElem?_concat_new, rfl⟩
    · obtain ⟨c₁, hc₁, hnone⟩ := h.watching w₁ k₁ j hk₁ hj
      exact ⟨c₁, Slots.getElem?_concat_old hc₁, hnone⟩
  · rcases Slots.getElem?_set_cases hk₁ with ⟨rfl, rfl⟩ | ⟨-, hold₁⟩ <;>
      rcases Slots.getElem?_set_cases hk₂ with ⟨rfl, rfl⟩ | ⟨-, hold₂⟩
    · rfl
    · cases hj₁
      exact (hnew hold₂ hj₂).elim
    · cases hj₂
      exact (hnew hold₁ hj₁).elim
    · exact h.lone w₁ w₂ k₁ k₂ j hold₁ hold₂ hj₁ hj₂
  · rcases Slots.getElem?_concat_cases hc₁ with hc₁ | ⟨rfl, rfl⟩
    · obtain ⟨w₁, k₁, hk₁, hj⟩ := h.watched j c₁ hc₁ hopen
      refine ⟨w₁, k₁, (Slots.getElem?_set_ne fun heq => ?_).trans hk₁, hj⟩
      subst heq
      obtain rfl := Option.some.inj (hw.symm.trans hk₁)
      cases hk.symm.trans hj
    · exact ⟨w, _, Slots.getElem?_set_self hw, rfl⟩
  · have hcount := Slots.countP_set hw Worker.isWatching
      { k with phase := .watching s.sessions.length, tried := k.tried + 1 }
    unfold Worker.isWatching at hcount
    rw [hk] at hcount
    have hcounted := h.counted
    show (s.sessions ++ [_]).countP _ = (s.workers.set w _).countP _
    rw [List.countP_append, List.countP_singleton]
    unfold Worker.isWatching at hcounted ⊢
    simp only [Option.isNone_none, if_true, Bool.false_eq_true, if_false] at hcount ⊢
    omega
  · rcases Slots.getElem?_concat_cases hc₁ with hc₁ | ⟨rfl, rfl⟩
    · exact h.decided j c₁ hc₁ hsome
    · exact absurd rfl hsome
  · exact absurd (h.idle hp ▸ hw) (by simp)

/-- A worker is done with its session, which is over or awaited. -/
theorem Inv.decideSession (h : s.Inv) (hw : s.workers[w]? = some k) (hk : k.phase = .watching i)
    (hi : s.sessions[i]? = some c) (hresolved : c.phase.resolved = true) {parkedTasks : List Nat}
    (hsub : s.parkedTasks ⊆ parkedTasks)
    (hawaited : c.phase.isFinished = false → i ∈ parkedTasks) (connected : Bool) :
    Inv { s.decideSession w k i c connected with parkedTasks } := by
  obtain ⟨c', hc', hopen'⟩ := h.watching w k i hw hk
  obtain rfl := Option.some.inj (hi.symm.trans hc')
  refine
    { watching := fun w₁ k₁ j hk₁ hj => ?_, lone := fun w₁ w₂ k₁ k₂ j hk₁ hk₂ hj₁ hj₂ => ?_
      watched := fun j c₁ hc₁ hopen => ?_, counted := ?_
      decided := fun j c₁ hc₁ hsome => ?_, idle := fun hp => ?_ }
  · rcases Slots.getElem?_set_cases hk₁ with ⟨-, rfl⟩ | ⟨hne, hk₁⟩
    · cases hj
    · obtain ⟨c₁, hc₁, hnone⟩ := h.watching w₁ k₁ j hk₁ hj
      refine ⟨c₁, (Slots.getElem?_set_ne fun hji => hne ?_).trans hc₁, hnone⟩
      exact h.lone w₁ w k₁ k i hk₁ hw (hji ▸ hj) hk
  · rcases Slots.getElem?_set_cases hk₁ with ⟨-, rfl⟩ | ⟨-, hk₁⟩
    · cases hj₁
    · rcases Slots.getElem?_set_cases hk₂ with ⟨-, rfl⟩ | ⟨-, hk₂⟩
      · cases hj₂
      · exact h.lone w₁ w₂ k₁ k₂ j hk₁ hk₂ hj₁ hj₂
  · rcases Slots.getElem?_set_cases hc₁ with ⟨-, rfl⟩ | ⟨hne, hc₁⟩
    · cases hopen
    · obtain ⟨w₁, k₁, hk₁, hj⟩ := h.watched j c₁ hc₁ hopen
      refine ⟨w₁, k₁, (Slots.getElem?_set_ne fun heq => hne ?_).trans hk₁, hj⟩
      subst heq
      obtain rfl := Option.some.inj (hw.symm.trans hk₁)
      exact (WorkerPhase.watching.inj (hk.symm.trans hj)).symm
  · have hworkers := Slots.countP_set hw Worker.isWatching
      ⟨.looking, k.tried, if connected then k.connected + 1 else k.connected⟩
    have hsessions := Slots.countP_set hi (fun c => c.seen.isNone) { c with seen := some connected }
    have hcounted := h.counted
    show (s.sessions.set i _).countP _ = (s.workers.set w _).countP _
    rw [hopen'] at hsessions
    unfold Worker.isWatching at hworkers hcounted ⊢
    rw [hk] at hworkers
    simp only [Option.isNone_none, Option.isNone_some, if_true, Bool.false_eq_true, if_false]
      at hworkers hsessions
    omega
  · rcases Slots.getElem?_set_cases hc₁ with ⟨rfl, rfl⟩ | ⟨-, hc₁⟩
    · exact ⟨hresolved, hawaited⟩
    · obtain ⟨hpast, hin⟩ := h.decided j c₁ hc₁ hsome
      exact ⟨hpast, fun hf => hsub (hin hf)⟩
  · exact absurd (h.idle hp ▸ hw) (by simp)

/-! ## Rounds -/

/-- Without workers every session is decided. -/
theorem Inv.all_decided (h : s.Inv) (hworkers : s.workers = []) (hi : s.sessions[i]? = some c) :
    c.seen ≠ none := by
  intro hopen
  obtain ⟨w, k, hk, -⟩ := h.watched i c hi hopen
  rw [hworkers] at hk
  cases hk

/-- The sweep returns when every task it awaits is over, and there is no other. -/
theorem Inv.returned (h : s.Inv) (hphase : s.phase = .draining)
    (hawaited : ∀ i ∈ s.parkedTasks, s.isFinished i = true) :
    ∀ c ∈ s.sessions, c.phase.isFinished = true := by
  intro c hc
  obtain ⟨i, hi⟩ := List.mem_iff_getElem?.mp hc
  have hdecided := h.decided i c hi
    (h.all_decided (h.idle (by rw [hphase]; decide)) hi)
  by_contra hopen
  have hfinished := hawaited i (hdecided.2 (Bool.eq_false_iff.mpr hopen))
  unfold Sweep.isFinished at hfinished
  rw [hi] at hfinished
  exact hopen hfinished

/-- Between the rounds nothing is watched, and a new round starts with idle workers. -/
theorem Inv.launch (h : s.Inv) (hworkers : s.workers = []) (budgetLeft : Bool) (parallel : Nat)
    (ordered : List PeerSource) : (s.launch budgetLeft parallel ordered).Inv := by
  have hlooking {w : Nat} {k : Worker}
      (hk : (s.launch budgetLeft parallel ordered).workers[w]? = some k) :
      k = ⟨.looking, 0, 0⟩ := List.eq_of_mem_replicate (List.mem_of_getElem? hk)
  refine
    { watching := fun w k j hk hj => ?_, lone := fun w w' k k' j hk _ hj _ => ?_
      watched := fun j c hc hopen => absurd hopen (h.all_decided hworkers hc)
      counted := ?_, decided := h.decided, idle := fun hp => absurd rfl hp }
  · obtain rfl := hlooking hk
    cases hj
  · obtain rfl := hlooking hk
    cases hj
  · have hcounted := h.counted
    rw [hworkers] at hcounted
    refine hcounted.trans ?_
    show 0 = (List.replicate parallel _).countP _
    rw [List.countP_replicate]
    rfl

/-- The loop goes on without a round, or to its end. -/
theorem Inv.turn (h : s.Inv) (hworkers : s.workers = []) (pool : List PeerSource)
    (phase : MainPhase) : Inv { s with pool, phase } :=
  { h with idle := fun _ => hworkers }

theorem Inv.head (h : s.Inv) (hphase : s.phase = .head) (sx : List SxSource)
    (found : List PeerSource) (prioRounds prioParallel : UInt8) (stopped : Bool) :
    (s.head sx found prioRounds prioParallel stopped).Inv := by
  have hworkers : s.workers = [] := h.idle (by rw [hphase]; decide)
  have hfold := h.turn hworkers (s.foldIn sx found) s.phase
  unfold Sweep.head
  dsimp only
  split_ifs
  · exact h.turn hworkers _ .draining
  · exact hfold.turn hworkers _ .draining
  · exact hfold
  · exact hfold.launch hworkers _ _ _
  · exact hfold
  · exact hfold.launch hworkers _ _ _

theorem Inv.endRound (h : s.Inv) (hover : ∀ k ∈ s.workers, k.phase = .over)
    (tried connected : Nat) :
    Inv { s with
      phase := .head, workers := [], sourcesTried := tried, peersConnected := connected } := by
  have hnone : s.workers.countP Worker.isWatching = 0 := by
    refine List.countP_eq_zero.mpr fun k hk => ?_
    unfold Worker.isWatching
    rw [hover k hk]
    decide
  refine
    { counted := h.counted.trans hnone, decided := h.decided, idle := fun _ => rfl
      watching := fun w k j hk _ => (by cases hk)
      lone := fun w w' k k' j hk _ _ _ => (by cases hk)
      watched := fun j c hc hopen => ?_ }
  obtain ⟨w, k, hk, hj⟩ := h.watched j c hc hopen
  cases (hover k (List.mem_of_getElem? hk)).symm.trans hj

/-! ## Steps -/

/-- What a move makes of the phase of its session, of the marks and of the free permits. -/
inductive PhaseStep (s : Sweep) (c : Session) :
    SessionMove → SessionPhase → Finset SocketAddr → Nat → Prop where
  | connect (h : c.phase = .dialing) : PhaseStep s c .connect .connected s.addrs s.free
  | fail (h : c.phase = .dialing) : PhaseStep s c .fail (.returned none) s.addrs s.free
  | claim (h : c.phase = .connected) (hfree : 0 < s.free) :
      PhaseStep s c .claim .claimed s.addrs (s.free - 1)
  | mark (h : c.phase = .claimed) :
      PhaseStep s c .mark .marked (insert c.src.addr s.addrs) s.free
  | send (h : c.phase = .marked) : PhaseStep s c .send .sent s.addrs s.free
  | leave (h : c.phase = .connected) (bytes : Nat) :
      PhaseStep s c (.leave bytes) (.returned (some bytes)) s.addrs s.free
  | leaveParked (h : c.phase = .claimed ∨ c.phase = .sent) (bytes : Nat) :
      PhaseStep s c (.leave bytes) (.returned (some bytes)) s.addrs (s.free + 1)
  | score {r : Option Nat} (h : c.phase = .returned r) :
      PhaseStep s c .score (.scored r) s.addrs s.free
  | clear {r : Option Nat} (h : c.phase = .scored r) :
      PhaseStep s c .clear (.finished r) (s.addrs.erase c.src.addr) s.free

theorem move_cases {m : SessionMove} (hs : s.move i c m = some s') :
    ∃ phase scoreboard addrs free, PhaseStep s c m phase addrs free ∧
      s' = { s with
        sessions := s.sessions.set i { c with phase }, scoreboard, addrs, free } := by
  cases m with
  | connect =>
    obtain ⟨h, hs⟩ := Option.ite_none_right_eq_some.mp hs
    exact ⟨_, _, _, _, .connect h, (Option.some.inj hs).symm⟩
  | fail =>
    obtain ⟨h, hs⟩ := Option.ite_none_right_eq_some.mp hs
    exact ⟨_, _, _, _, .fail h, (Option.some.inj hs).symm⟩
  | claim =>
    obtain ⟨h, hs⟩ := Option.ite_none_right_eq_some.mp hs
    exact ⟨_, _, _, _, .claim h.1 h.2, (Option.some.inj hs).symm⟩
  | mark =>
    obtain ⟨h, hs⟩ := Option.ite_none_right_eq_some.mp hs
    exact ⟨_, _, _, _, .mark h, (Option.some.inj hs).symm⟩
  | send =>
    obtain ⟨h, hs⟩ := Option.ite_none_right_eq_some.mp hs
    exact ⟨_, _, _, _, .send h, (Option.some.inj hs).symm⟩
  | leave bytes =>
    rw [Sweep.move] at hs
    split_ifs at hs with hconnected hparked
    · exact ⟨_, _, _, _, .leave hconnected bytes, (Option.some.inj hs).symm⟩
    · exact ⟨_, _, _, _, .leaveParked hparked bytes, (Option.some.inj hs).symm⟩
  | score =>
    rw [Sweep.move] at hs
    split at hs
    · next r h => exact ⟨_, _, _, _, .score h, (Option.some.inj hs).symm⟩
    · cases hs
  | clear =>
    rw [Sweep.move] at hs
    split at hs
    · next r h => exact ⟨_, _, _, _, .clear h, (Option.some.inj hs).symm⟩
    · cases hs

theorem PhaseStep.resolved {m : SessionMove} {phase : SessionPhase} {addrs : Finset SocketAddr}
    {free : Nat} (h : PhaseStep s c m phase addrs free) (hpast : c.phase.resolved = true) :
    phase.resolved = true := by
  cases h with
  | connect h | fail h | claim h | mark h | leave h =>
    rw [h] at hpast
    cases hpast
  | _ => rfl

theorem PhaseStep.unfinished {m : SessionMove} {phase : SessionPhase} {addrs : Finset SocketAddr}
    {free : Nat} (h : PhaseStep s c m phase addrs free) : c.phase.isFinished = false := by
  cases h with
  | connect h | fail h | claim h | mark h | send h | leave h | score h | clear h => rw [h]; rfl
  | leaveParked h => rcases h with h | h <;> rw [h] <;> rfl

theorem Inv.move (h : s.Inv) (hi : s.sessions[i]? = some c) {m : SessionMove}
    (hs : s.move i c m = some s') : s'.Inv := by
  obtain ⟨phase, scoreboard, addrs, free, hphase, rfl⟩ := move_cases hs
  refine h.moved hi ?_ hphase.resolved (fun hf => ?_) _ _ _
  · rfl
  · exact absurd (hphase.unfinished.symm.trans hf) (by decide)

/-- The head of the loop leaves sessions and marks alone. -/
theorem head_same (s : Sweep) (sx : List SxSource) (found : List PeerSource)
    (prioRounds prioParallel : UInt8) (stopped : Bool) :
    (s.head sx found prioRounds prioParallel stopped).sessions = s.sessions ∧
      (s.head sx found prioRounds prioParallel stopped).addrs = s.addrs := by
  unfold Sweep.head
  dsimp only
  split_ifs <;> exact ⟨rfl, rfl⟩

/-- What a worker at its top does. -/
theorem look_cases (s : Sweep) (w : Nat) (k : Worker) (stopped : Bool) :
    s.look w k stopped = s.setWorker w { k with phase := .over } ∨
      ∃ src queue, s.queue = src :: queue ∧
        s.look w k stopped = { s.setWorker w { k with phase := .holding src } with queue } := by
  unfold look
  split_ifs
  · exact .inl rfl
  · split
    · exact .inl rfl
    · next src queue hqueue => exact .inr ⟨src, queue, hqueue, rfl⟩

theorem watched_eq_some {x : Worker × Nat × Session} (h : s.watched w = some x) :
    s.workers[w]? = some x.1 ∧ x.1.phase = .watching x.2.1 ∧
      s.sessions[x.2.1]? = some x.2.2 := by
  obtain ⟨k, hk, h⟩ := Option.bind_eq_some_iff.mp h
  split at h
  · next i hphase =>
    obtain ⟨c, hc, rfl⟩ := Option.map_eq_some_iff.mp h
    exact ⟨hk, hphase, hc⟩
  · cases h

/-- What a step does, one constructor for each outcome of an event. -/
inductive Stepped (s : Sweep) : SweepEvent → Sweep → Prop where
  | head {sx : List SxSource} {found : List PeerSource} {prioRounds prioParallel : UInt8}
      {stopped : Bool} (hphase : s.phase = .head) :
      Stepped s (.head sx found prioRounds prioParallel stopped)
        (s.head sx found prioRounds prioParallel stopped)
  | rest {w : Nat} {k : Worker} {stopped : Bool} (hw : s.workers[w]? = some k)
      (hk : k.phase = .looking) :
      Stepped s (.look w stopped) (s.setWorker w { k with phase := .over })
  | take {w : Nat} {k : Worker} {stopped : Bool} {src : PeerSource} {queue : List PeerSource}
      (hw : s.workers[w]? = some k) (hk : k.phase = .looking) (hqueue : s.queue = src :: queue) :
      Stepped s (.look w stopped) { s.setWorker w { k with phase := .holding src } with queue }
  | skip {w : Nat} {k : Worker} {banned : Bool} {src : PeerSource} (hw : s.workers[w]? = some k)
      (hk : k.phase = .holding src) :
      Stepped s (.check w banned) (s.setWorker w { k with phase := .looking })
  | dial {w : Nat} {k : Worker} {banned : Bool} {src : PeerSource} (hw : s.workers[w]? = some k)
      (hk : k.phase = .holding src) (hfree : src.addr ∉ s.addrs) :
      Stepped s (.check w banned) (s.dial w k src)
  | session {i : Nat} {c : Session} {m : SessionMove} {s' : Sweep} (hi : s.sessions[i]? = some c)
      (hmove : s.move i c m = some s') : Stepped s (.session i m) s'
  | joined {w i : Nat} {k : Worker} {c : Session} {r : Option Nat}
      (hwatched : s.watched w = some (k, i, c)) (hr : c.phase = .finished r) :
      Stepped s (.joined w) (s.decideSession w k i c r.isSome)
  | released {w i : Nat} {k : Worker} {c : Session} (hwatched : s.watched w = some (k, i, c))
      (hresolved : c.phase.resolved = true) :
      Stepped s (.released w)
        { s.decideSession w k i c true with parkedTasks := s.parkedTasks ++ [i] }
  | endRound (hphase : s.phase = .sweeping) (hover : ∀ k ∈ s.workers, k.phase = .over) :
      Stepped s .endRound { s with
        phase := .head, workers := []
        sourcesTried := s.sourcesTried + (s.workers.map Worker.tried).sum
        peersConnected := s.peersConnected + (s.workers.map Worker.connected).sum }
  | drain (hphase : s.phase = .draining) (hawaited : ∀ i ∈ s.parkedTasks, s.isFinished i = true) :
      Stepped s .drain { s with phase := .returned }
  | lotTaken (hfree : 0 < s.free) :
      Stepped s .lotTaken { s with free := s.free - 1, elsewhere := s.elsewhere + 1 }
  | lotFreed (helsewhere : 0 < s.elsewhere) :
      Stepped s .lotFreed { s with free := s.free + 1, elsewhere := s.elsewhere - 1 }

theorem stepped {e : SweepEvent} (hs : s.step e = some s') : Stepped s e s' := by
  cases e with
  | head sx found prioRounds prioParallel stopped =>
    obtain ⟨hphase, hs⟩ := Option.ite_none_right_eq_some.mp hs
    exact Option.some.inj hs ▸ .head hphase
  | look w stopped =>
    obtain ⟨k, hk, hs⟩ := Option.bind_eq_some_iff.mp hs
    obtain ⟨hphase, hs⟩ := Option.ite_none_right_eq_some.mp hs
    obtain rfl := Option.some.inj hs
    rcases s.look_cases w k stopped with heq | ⟨src, queue, hqueue, heq⟩
    · rw [heq]
      exact .rest hk hphase
    · rw [heq]
      exact .take hk hphase hqueue
  | check w banned =>
    obtain ⟨k, hk, hs⟩ := Option.bind_eq_some_iff.mp hs
    split at hs
    · next src hphase =>
      split_ifs at hs with hskip
      · exact Option.some.inj hs ▸ .skip hk hphase
      · rw [Bool.or_eq_true, not_or, decide_eq_true_eq] at hskip
        exact Option.some.inj hs ▸ .dial hk hphase hskip.2
    · cases hs
  | session i m =>
    obtain ⟨c, hc, hs⟩ := Option.bind_eq_some_iff.mp hs
    exact .session hc hs
  | joined w =>
    obtain ⟨⟨k, i, c⟩, hx, hs⟩ := Option.bind_eq_some_iff.mp hs
    dsimp only at hs
    split at hs
    · next r hr => exact Option.some.inj hs ▸ .joined hx hr
    · cases hs
  | released w =>
    obtain ⟨⟨k, i, c⟩, hx, hs⟩ := Option.bind_eq_some_iff.mp hs
    obtain ⟨hresolved, hs⟩ := Option.ite_none_right_eq_some.mp hs
    exact Option.some.inj hs ▸ .released hx hresolved
  | endRound =>
    obtain ⟨⟨hphase, hover⟩, hs⟩ := Option.ite_none_right_eq_some.mp hs
    exact Option.some.inj hs ▸ .endRound hphase hover
  | drain =>
    obtain ⟨⟨hphase, hawaited⟩, hs⟩ := Option.ite_none_right_eq_some.mp hs
    exact Option.some.inj hs ▸ .drain hphase hawaited
  | lotTaken =>
    obtain ⟨hfree, hs⟩ := Option.ite_none_right_eq_some.mp hs
    exact Option.some.inj hs ▸ .lotTaken hfree
  | lotFreed =>
    obtain ⟨helsewhere, hs⟩ := Option.ite_none_right_eq_some.mp hs
    exact Option.some.inj hs ▸ .lotFreed helsewhere

theorem inv_step (h : s.Inv) {e : SweepEvent} (hs : s.step e = some s') : s'.Inv := by
  cases stepped hs with
  | head hphase => exact h.head hphase ..
  | rest hw hk => exact h.rest hw (by rw [Worker.isWatching, hk]) rfl s.queue
  | @take _ _ _ _ queue hw hk => exact h.rest hw (by rw [Worker.isWatching, hk]) rfl queue
  | skip hw hk => exact h.rest hw (by rw [Worker.isWatching, hk]) rfl s.queue
  | dial hw hk => exact h.dial hw hk
  | session hi hmove => exact h.move hi hmove
  | joined hwatched hr =>
    obtain ⟨hk, hphase, hc⟩ := watched_eq_some hwatched
    refine h.decideSession hk hphase hc ?_ (List.Subset.refl _) (fun hopen => ?_) _
    · rw [hr]
      rfl
    · rw [hr] at hopen
      cases hopen
  | @released _ i _ _ hwatched hresolved =>
    obtain ⟨hk, hphase, hc⟩ := watched_eq_some hwatched
    exact h.decideSession hk hphase hc hresolved (List.subset_append_left _ _)
      (fun _ => List.mem_append_right _ (List.mem_singleton_self i)) true
  | endRound hphase hover => exact h.endRound hover _ _
  | drain hphase =>
    exact h.turn (h.idle (by rw [hphase]; decide)) s.pool .returned
  | lotTaken => exact { h with }
  | lotFreed => exact { h with }

theorem inv_start (config : ManagerConfig) (ipFilter : Option IpFilter)
    (sources : List PeerSource) (free elsewhere : Nat) :
    (start config ipFilter sources free elsewhere).Inv where
  watching _ _ _ hk _ := by cases hk
  lone _ _ _ _ _ hk _ _ _ := by cases hk
  watched _ _ hc _ := by cases hc
  counted := rfl
  decided _ _ hc _ := by cases hc
  idle _ := rfl

end Sweep

end PadMule.Engine.Fetch
