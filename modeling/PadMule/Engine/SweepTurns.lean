import PadMule.Engine.Admission
import PadMule.Engine.ServerLogin
import PadMule.Lib.FileMap
import PadMule.Lib.Turns
import PadMule.Lib.Runs
import PadMule.Proto.Hash
import Mathlib.Data.List.MinMax
import Mathlib.Data.Prod.Lex

/-
  `Engine::maintain_resume_fetches` and `Engine::maintain_source_reask`: the two sweeps of the
  heartbeat that pick one download each.

  The retry sweep takes the one that was retried longest ago in the highest tier of priority, and
  stamps it, so the stamps are the times of the last turns and nobody is passed over. The re-ask
  sweep takes the first one that is due. A download in front that is due at every beat is taken at
  every beat, and one behind it waits; that does not happen where whoever is due behind the one that
  is taken has become due since that one had its last turn (`Ready`, `sweeps_starve_nobody`).
-/

namespace PadMule.Engine.SweepTurns

open FileMap

/-- An `Arc<Download>`: its allocation, and the hash of its file. -/
structure Handle where
  arc : Nat
  hash : Hash16
deriving DecidableEq

/-- What the sweeps read of a registered download. -/
structure Row where
  dl : Handle
  admission : AdmissionRow
  cancelled : Bool
  fetching : Bool
  priority : UInt8
  /-- `source_pool().0` -/
  sourcesFound : Nat
deriving DecidableEq

/-! ## The retry sweep -/

/-- Durations are in milliseconds. -/
def RESUME_RETRY_BUDGET : Nat := 6 * 1000
def RESUME_RETRY_EVERY : Nat := 45 * 1000
def RESUME_RETRY_DUTY : Nat := 4
def RESUME_RETRY_SPREAD : Nat := 5

def idleCount (rows : List Row) : Nat :=
  rows.countP fun row => !row.cancelled && !row.fetching && !row.admission.paused

def retryGap (idle : Nat) : Nat :=
  max (RESUME_RETRY_EVERY / max 1 (min idle RESUME_RETRY_SPREAD))
    (RESUME_RETRY_BUDGET * RESUME_RETRY_DUTY)

/-- The rows that may be retried, in the order they were added. -/
def retryCandidates (cap : UInt32) (rows : List Row) : List Row :=
  ((rows.zip (queuedFlags cap (rows.map Row.admission))).filter fun e =>
    !e.1.admission.paused && !e.2 && !e.1.cancelled && !e.1.fetching).map Prod.fst

/-- `(Reverse(dl.priority()), dl.last_retry_at())` -/
def retryKey (lastRetryAt : Handle → Nat) (row : Row) : Natᵒᵈ ×ₗ Nat :=
  toLex (OrderDual.toDual row.priority.toNat, lastRetryAt row.dl)

/-- A pass of the retry sweep, as history. -/
structure Retry where
  wall : Nat
  maxActive : UInt32
  downloads : List Row
  chosen : Option Handle

/-- `e` is a candidate of the pass, and its priority is not below that of `d`. -/
def Retry.Eligible (r : Retry) (e d : Handle) : Prop :=
  ∃ row ∈ retryCandidates r.maxActive r.downloads, row.dl = e ∧
    ∀ other ∈ r.downloads, other.dl = d → other.priority ≤ row.priority

/-! ## The re-ask sweep -/

def SERVER_REASK_EVERY : Nat := 15 * 60 * 1000
def KAD_REASK_EVERY : Nat := 60 * 60 * 1000
def KAD_REASK_MAX_MULTIPLIER : Nat := 7
def SOURCE_REASK_TARGET : Nat := 400

structure SourceReask where
  lastServer : Option Nat
  kadDue : Option Nat
  kadSearches : Nat
deriving DecidableEq

namespace SourceReask

def new : SourceReask := ⟨none, none, 0⟩

def serverDue (st : SourceReask) (now : Nat) : Bool :=
  match st.lastServer with
  | none => true
  | some t => SERVER_REASK_EVERY ≤ now - t

def kadIsDue (st : SourceReask) (now : Nat) : Bool :=
  match st.kadDue with
  | none => true
  | some t => t ≤ now

/-- Due on a channel. -/
def due (st : SourceReask) (now : Nat) : Bool := st.serverDue now || st.kadIsDue now

/-- The clocks after the channels that are due were asked. -/
def ask (st : SourceReask) (now : Nat) : SourceReask :=
  let st' := if st.serverDue now then { st with lastServer := some now } else st
  if st.kadIsDue now then
    let searches := min (st.kadSearches + 1) KAD_REASK_MAX_MULTIPLIER
    { st' with kadSearches := searches, kadDue := some (now + KAD_REASK_EVERY * searches) }
  else st'

end SourceReask

abbrev Clocks := Dir Hash16 SourceReask

def clocksOf (clocks : Clocks) (hash : Hash16) : SourceReask := (get clocks hash).getD .new

/-- Running, and not yet with sources enough. -/
def Row.reaskable (row : Row) : Bool :=
  row.fetching && !row.cancelled && !row.admission.paused &&
    row.sourcesFound < SOURCE_REASK_TARGET

/-- A beat of the re-ask sweep, as history. -/
structure Reask where
  now : Nat
  downloads : List Row
  clocks : Clocks
  chosen : Option Handle
deriving DecidableEq

/-- `e` is a candidate of the beat, apart from its clocks. -/
def Reask.Open (r : Reask) (e : Handle) : Prop := ∃ row ∈ r.downloads, row.dl = e ∧ row.reaskable

instance (r : Reask) (e : Handle) : Decidable (r.Open e) := by
  unfold Reask.Open
  infer_instance

def Reask.Eligible (r : Reask) (e _d : Handle) : Prop :=
  r.Open e ∧ (clocksOf r.clocks e.hash).due r.now = true

def firstDue (downloads : List Row) (clocks : Clocks) (now : Nat) : Option Row :=
  downloads.find? fun row => row.reaskable && (clocksOf clocks row.dl.hash).due now

/-! ## The engine -/

structure World where
  state : EngineState
  offline : Bool
  maxActive : UInt32
  downloads : List Row
  /-- The wall clock, in seconds since the epoch; a clock before the epoch reads 0. -/
  wall : Nat
  instant : Nat
  lastResumeRetry : Nat
  lastRetryAt : Handle → Nat
  sourceReask : Clocks
  retries : List Retry
  reasks : List Reask

namespace World

/-- An engine as it was created, with whatever downloads it has loaded. -/
def new (state : EngineState) (offline : Bool) (maxActive : UInt32) (downloads : List Row)
    (wall instant : Nat) : World :=
  ⟨state, offline, maxActive, downloads, wall, instant, instant, fun _ => 0, [], [], []⟩

def retryChoice (w : World) : Option Row :=
  (retryCandidates w.maxActive w.downloads).argmin (retryKey w.lastRetryAt)

/-- The pass comes as far as its selection. -/
def retryDue (w : World) : Bool :=
  w.state = .running && !w.offline && idleCount w.downloads ≠ 0 &&
    retryGap (idleCount w.downloads) ≤ w.instant - w.lastResumeRetry

def retryPass (w : World) : Retry :=
  ⟨w.wall, w.maxActive, w.downloads, w.retryChoice.map Row.dl⟩

/-- What follows the selection changes nothing that a sweep reads, but by the moves of others. -/
def maintainResumeFetches (w : World) : World :=
  if !w.retryDue then w
  else
    { w with
      lastResumeRetry := w.instant
      lastRetryAt := match w.retryChoice.map Row.dl with
        | some dl => Function.update w.lastRetryAt dl w.wall
        | none => w.lastRetryAt
      retries := w.retries ++ [w.retryPass] }

def reaskOpen (w : World) : Bool := w.state = .running && !w.offline

def reaskChoice (w : World) : Option Row := firstDue w.downloads w.sourceReask w.instant

/-- The clocks after a beat that chose `dl`: those of files that have left are dropped. -/
def reasked (w : World) (dl : Handle) : Clocks :=
  let live := w.sourceReask.filter fun e => e.1 ∈ w.downloads.map fun row => row.dl.hash
  write live dl.hash ((clocksOf live dl.hash).ask w.instant)

def reaskBeat (w : World) : Reask :=
  ⟨w.instant, w.downloads, w.sourceReask, w.reaskChoice.map Row.dl⟩

def maintainSourceReask (w : World) : World :=
  if !w.reaskOpen then w
  else
    { w with
      sourceReask := match w.reaskChoice.map Row.dl with
        | some dl => w.reasked dl
        | none => w.sourceReask
      reasks := w.reasks ++ [w.reaskBeat] }

end World

inductive Move where
  | retry
  | reask
  /-- Time passes; the wall clock may be set to anything. -/
  | advance (wall millis : Nat)
  /-- Downloads come, go and change in any way, and so does the engine's state. -/
  | change (state : EngineState) (offline : Bool) (maxActive : UInt32) (downloads : List Row)

def step (w : World) : Move → Option World
  | .retry => some w.maintainResumeFetches
  | .reask => some w.maintainSourceReask
  | .advance wall millis => some { w with wall, instant := w.instant + millis }
  | .change state offline maxActive downloads =>
    some { w with state, offline, maxActive, downloads }

/-! ## What is asked of the sweeps -/

/-- Between two turns of one download, everybody who could have had the second had one. -/
structure StarvesNobody (w : World) : Prop where
  retries : Turns.Ticks Retry.chosen Retry.wall w.retries →
    Turns.NeverStarves Retry.chosen Retry.Eligible w.retries
  reasks : Turns.NeverStarves Reask.chosen Reask.Eligible w.reasks

/-- Nobody who is due now was due already when `d` had its last turn, if it could have been asked
    at every beat since. -/
def World.NobodyOverdue (w : World) (d : Handle) : Prop :=
  match Turns.sinceTurn Reask.chosen d w.reasks with
  | none => True
  | some (first, mid) => ∀ row ∈ w.downloads, row.dl ≠ d → row.reaskable = true →
    (clocksOf w.sourceReask row.dl.hash).due w.instant = true →
    (∀ r ∈ first :: mid, r.Open row.dl) →
      (clocksOf w.sourceReask row.dl.hash).due first.now = false

instance (w : World) (d : Handle) : Decidable (w.NobodyOverdue d) := by
  unfold World.NobodyOverdue
  split <;> infer_instance

/-- The files of the registry are distinct, and nobody is overdue behind the one that is taken. -/
def World.ReadyToReask (w : World) : Prop :=
  (w.downloads.map fun row => row.dl.hash).Nodup ∧
    w.reaskChoice.all (fun row => w.NobodyOverdue row.dl) = true

instance (w : World) : Decidable w.ReadyToReask := inferInstanceAs (Decidable (_ ∧ _))

/-- What a sweep that takes a download must find: a clock past the epoch, since 0 is the stamp of
    what was never retried, or nobody overdue. -/
def World.Ready (w : World) : Move → Prop
  | .retry => w.retryDue = true → w.retryChoice.isSome = true → 0 < w.wall
  | .reask => w.reaskOpen = true → w.ReadyToReask
  | .advance .. | .change .. => True

instance (w : World) (m : Move) : Decidable (w.Ready m) :=
  match m with
  | .retry => inferInstanceAs (Decidable (_ → _ → _))
  | .reask => inferInstanceAs (Decidable (_ → _))
  | .advance .. => isTrue trivial
  | .change .. => isTrue trivial

/-! ## The retry sweep is fair -/

namespace World

variable {w w' : World} {d e : Handle}

theorem mem_of_mem_retryCandidates {cap : UInt32} {rows : List Row} {row : Row}
    (h : row ∈ retryCandidates cap rows) : row ∈ rows := by
  obtain ⟨entry, hmem, rfl⟩ := List.mem_map.mp h
  exact (List.of_mem_zip (List.mem_filter.mp hmem).1).1

/-- Whoever is taken was retried no later than any candidate whose priority is as high. -/
theorem lastRetryAt_le {row other : Row} (hchoice : w.retryChoice = some row)
    (hother : other ∈ retryCandidates w.maxActive w.downloads)
    (hpriority : row.priority ≤ other.priority) :
    w.lastRetryAt row.dl ≤ w.lastRetryAt other.dl := by
  have hle : retryKey w.lastRetryAt row ≤ retryKey w.lastRetryAt other :=
    List.le_of_mem_argmin hother hchoice
  rcases Prod.Lex.le_iff.mp hle with hlt | ⟨-, hstamp⟩
  · have hlt' : other.priority.toNat < row.priority.toNat := hlt
    exact absurd hpriority (by rw [UInt8.le_iff_toNat_le]; omega)
  · exact hstamp

/-- The stamps are the times of the last turns, all of them after the epoch. -/
structure Stamped (w : World) : Prop where
  stamps : w.lastRetryAt = Turns.stamp Retry.chosen Retry.wall w.retries
  times : ∀ r ∈ w.retries, r.chosen.isSome = true → 0 < r.wall

theorem Stamped.retry (h : w.Stamped) (hready : w.Ready .retry) :
    w.maintainResumeFetches.Stamped := by
  unfold maintainResumeFetches
  split_ifs with hgate
  · exact h
  · refine ⟨funext fun dl => ?_, fun r hr hsome => ?_⟩
    · have hchosen : w.retryPass.chosen = w.retryChoice.map Row.dl := rfl
      dsimp only
      rw [Turns.stamp_concat, h.stamps, hchosen]
      cases w.retryChoice.map Row.dl with
      | none => rfl
      | some dl' =>
        dsimp only
        rw [Function.update_apply]
        exact if_congr (eq_comm.trans Option.some_inj.symm) rfl rfl
    · rcases List.mem_append.mp hr with hr | hr
      · exact h.times r hr hsome
      · obtain rfl := List.mem_singleton.mp hr
        exact hready (by simpa using hgate) (by simpa [retryPass] using hsome)

theorem Stamped.fair (h : w.Stamped) (hticks : Turns.Ticks Retry.chosen Retry.wall w.retries) :
    Turns.Fair Retry.chosen Retry.Eligible w.retries w.retryPass := by
  refine Turns.fair_of_stamp_le hticks h.times fun d e hchosen helig => ?_
  obtain ⟨row, hchoice, rfl⟩ := Option.map_eq_some_iff.mp hchosen
  obtain ⟨other, hother, rfl, hpriority⟩ := helig
  have hmem : row ∈ w.downloads := mem_of_mem_retryCandidates (List.argmin_mem hchoice)
  rw [← h.stamps]
  exact lastRetryAt_le hchoice hother (hpriority row hmem rfl)

/-! ## The re-ask sweep is fair where nobody is overdue -/

theorem clocksOf_write (clocks : Clocks) (hash hash' : Hash16) (st : SourceReask) :
    clocksOf (write clocks hash st) hash' = if hash' = hash then st else clocksOf clocks hash' := by
  unfold clocksOf
  rw [get_write]
  split_ifs <;> rfl

theorem mem_of_reaskChoice {row : Row} (h : w.reaskChoice = some row) : row ∈ w.downloads :=
  List.mem_of_find?_eq_some h

/-- A registered download that is not taken keeps its clocks. -/
theorem clocksOf_reask (hdistinct : (w.downloads.map fun row => row.dl.hash).Nodup) {row : Row}
    (hrow : row ∈ w.downloads) (hchosen : w.reaskChoice.map Row.dl ≠ some row.dl) :
    clocksOf w.maintainSourceReask.sourceReask row.dl.hash =
      clocksOf w.sourceReask row.dl.hash := by
  unfold maintainSourceReask
  split_ifs with hgate
  · rfl
  · cases hchoice : w.reaskChoice with
    | none => rfl
    | some taken =>
      have hne : row.dl.hash ≠ taken.dl.hash := fun heq =>
        hchosen (by rw [hchoice, Option.map_some,
          List.inj_on_of_nodup_map hdistinct hrow (mem_of_reaskChoice hchoice) heq])
      show clocksOf (w.reasked taken.dl) row.dl.hash = _
      rw [reasked, clocksOf_write, if_neg hne, clocksOf,
        get_filter_mem w.sourceReask (List.mem_map.mpr ⟨row, hrow, rfl⟩), clocksOf]

/-- Who was in reach of every beat since the last turn of `d`, and was not taken, has the clocks
    that it had then. -/
def Unasked (w : World) : Prop := ∀ d first mid e,
  Turns.sinceTurn Reask.chosen d w.reasks = some (first, mid) → e ≠ d →
    (∀ r ∈ first :: mid, r.Open e) → (∀ r ∈ mid, r.chosen ≠ some e) →
      clocksOf w.sourceReask e.hash = clocksOf first.clocks e.hash

theorem Unasked.reask (h : w.Unasked)
    (hdistinct : (w.downloads.map fun row => row.dl.hash).Nodup) :
    w.maintainSourceReask.Unasked := by
  cases hopen : w.reaskOpen with
  | false =>
    rw [maintainSourceReask, hopen]
    exact h
  | true =>
    intro d first mid e hsince hne hall hmid
    have hlog : w.maintainSourceReask.reasks = w.reasks ++ [w.reaskBeat] := by
      rw [maintainSourceReask, hopen]
      rfl
    have hkeeps (hrow : w.reaskBeat.Open e)
        (hchosen : w.reaskChoice.map Row.dl ≠ some e) :
        clocksOf w.maintainSourceReask.sourceReask e.hash = clocksOf w.sourceReask e.hash := by
      obtain ⟨row, hrow, rfl, -⟩ := hrow
      exact clocksOf_reask hdistinct hrow hchosen
    rw [hlog, Turns.sinceTurn_concat] at hsince
    split_ifs at hsince with hd
    · obtain ⟨rfl, rfl⟩ := Prod.mk.inj (Option.some.inj hsince)
      have hchosen : w.reaskChoice.map Row.dl ≠ some e := fun heq =>
        hne (Option.some.inj (heq.symm.trans hd))
      exact hkeeps (hall w.reaskBeat (List.mem_cons_self ..)) hchosen
    · obtain ⟨⟨first', mid'⟩, hold, heq⟩ := Option.map_eq_some_iff.mp hsince
      obtain ⟨rfl, rfl⟩ := Prod.mk.inj heq
      have hlast := hkeeps (hall w.reaskBeat (by simp)) (hmid w.reaskBeat (by simp))
      refine hlast.trans (h d first' mid' e hold hne (fun r hr => hall r ?_) fun r hr =>
        hmid r (List.mem_append_left _ hr))
      rw [← List.cons_append]
      exact List.mem_append_left _ hr

theorem Unasked.fair (h : w.Unasked) (hready : w.ReadyToReask) :
    Turns.Fair Reask.chosen Reask.Eligible w.reasks w.reaskBeat := by
  intro d first mid e hchosen hsince hne hall ⟨⟨row, hrow, hdl, hreaskable⟩, hdue⟩
  by_contra hnone
  obtain ⟨taken, hchoice, rfl⟩ := Option.map_eq_some_iff.mp hchosen
  have hclocks := h taken.dl first mid e hsince hne (fun r hr => (hall r hr).1)
    fun r hr heq => hnone ⟨r, hr, heq⟩
  have hover : w.NobodyOverdue taken.dl := by simpa [hchoice] using hready.2
  rw [NobodyOverdue, hsince] at hover
  subst hdl
  have hnotdue := hover row hrow hne hreaskable hdue fun r hr => (hall r hr).1
  rw [hclocks] at hnotdue
  exact absurd (hall first (List.mem_cons_self ..)).2 (by rw [hnotdue]; exact Bool.false_ne_true)

/-! ## Runs -/

structure Inv (w : World) : Prop where
  stamped : w.Stamped
  unasked : w.Unasked
  fair : StarvesNobody w

theorem Inv.retry (h : w.Inv) (hready : w.Ready .retry) : w.maintainResumeFetches.Inv := by
  have hstamped := h.stamped.retry hready
  cases hdue : w.retryDue with
  | false =>
    rw [maintainResumeFetches, hdue]
    exact h
  | true =>
    have hlog : w.maintainResumeFetches.retries = w.retries ++ [w.retryPass] := by
      rw [maintainResumeFetches, hdue]
      rfl
    have hreasks : w.maintainResumeFetches.reasks = w.reasks := by
      rw [maintainResumeFetches, hdue]
      rfl
    have hclocks : w.maintainResumeFetches.sourceReask = w.sourceReask := by
      rw [maintainResumeFetches, hdue]
      rfl
    refine ⟨hstamped, ?_, ⟨fun hticks => ?_, hreasks ▸ h.fair.reasks⟩⟩
    · rw [Unasked, hreasks, hclocks]
      exact h.unasked
    · rw [hlog] at hticks ⊢
      exact Turns.neverStarves_concat.mpr
        ⟨h.fair.retries hticks.of_concat, h.stamped.fair hticks.of_concat⟩

theorem Inv.reask (h : w.Inv) (hready : w.Ready .reask) : w.maintainSourceReask.Inv := by
  cases hopen : w.reaskOpen with
  | false =>
    rw [maintainSourceReask, hopen]
    exact h
  | true =>
    have hready := hready hopen
    have hunasked := h.unasked.reask hready.1
    rw [maintainSourceReask, hopen] at hunasked ⊢
    exact ⟨⟨h.stamped.stamps, h.stamped.times⟩, hunasked, h.fair.retries,
      Turns.neverStarves_concat.mpr ⟨h.fair.reasks, h.unasked.fair hready⟩⟩

theorem Inv.step {m : Move} (h : w.Inv) (hready : w.Ready m) (hs : step w m = some w') :
    w'.Inv := by
  cases m with
  | retry =>
    obtain rfl := Option.some.inj hs
    exact h.retry hready
  | reask =>
    obtain rfl := Option.some.inj hs
    exact h.reask hready
  | advance wall millis =>
    obtain rfl := Option.some.inj hs
    exact ⟨⟨h.stamped.stamps, h.stamped.times⟩, h.unasked, ⟨h.fair.retries, h.fair.reasks⟩⟩
  | change state offline maxActive downloads =>
    obtain rfl := Option.some.inj hs
    exact ⟨⟨h.stamped.stamps, h.stamped.times⟩, h.unasked, ⟨h.fair.retries, h.fair.reasks⟩⟩

theorem inv_new (state : EngineState) (offline : Bool) (maxActive : UInt32)
    (downloads : List Row) (wall instant : Nat) :
    (new state offline maxActive downloads wall instant).Inv where
  stamped := ⟨rfl, fun _ hr => absurd hr List.not_mem_nil⟩
  unasked d first mid e hsince := absurd hsince (by simp [new, Turns.sinceTurn])
  fair := ⟨fun _ => Turns.neverStarves_nil, Turns.neverStarves_nil⟩

end World

/-- A download with the hash `[n; 16]`, of normal priority. -/
def download (n : UInt8) (fetching : Bool) : Row :=
  ⟨⟨n.toNat, .fill 16 n⟩, ⟨false, false, false⟩, false, fetching, 0, 0⟩

end PadMule.Engine.SweepTurns
