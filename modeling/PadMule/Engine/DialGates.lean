import PadMule.Engine.PeerSources
import PadMule.Engine.ServerLogin

/-
  `mule-engine/src/fetch.rs` and `engine.rs`: the addresses that the fetch workers dial.

  A sweep dials from a pool that starts with what the server and Kad answered, and takes in what
  peers and later searches name. It tests every source against the blocklist of the engine as it
  was when the sweep was spawned; `start` reads the list anew, and no stop ends a sweep. A worker
  takes a source from the queue of its round, drops it if it is banned or already parked, and
  dials it in a task of its own. Whether a download is complete, paused or cancelled only ends a
  round early, and which order the scores give the queue is left open.

  So every dial goes where we would let it exactly if none is to 0.0.0.0/8, and none to an address
  on which the blocklist has changed since its sweep was spawned (`dials_are_ours`).
-/

namespace PadMule.Engine.DialGates

structure Download where
  fetching : Bool
  banned : List IpAddr
  /-- What peers have named since the last round. -/
  sxSources : List SxSource
  /-- What the engine has found since the last round. -/
  discoveredSources : List PeerSource
deriving DecidableEq

def Download.isBanned (dl : Download) (addr : SocketAddr) : Bool := addr.ip ∈ dl.banned

/-- A source that a worker took, and the bans of the download at that moment. -/
structure Worker where
  src : PeerSource
  bans : List IpAddr
  /-- It was neither banned nor parked. -/
  cleared : Bool
deriving DecidableEq

/-- A running `download_file`. -/
structure Sweep where
  dl : Nat
  ipFilter : Option IpFilter
  pool : List PeerSource
  everDialed : List SocketAddr
  queue : List PeerSource
  workers : List Worker
deriving DecidableEq

/-- A TCP dial, and the blocklist that the engine held at that moment. -/
structure Dial where
  src : PeerSource
  bans : List IpAddr
  ipFilter : Option IpFilter
deriving DecidableEq

/-- `downloads` are all that the process ever held, in the registry or not. -/
structure World where
  state : EngineState
  ipFilter : Option IpFilter
  downloads : List Download
  sweeps : List Sweep
  dials : List Dial
deriving DecidableEq

def World.new : World := ⟨.stopped, none, [], [], []⟩

inductive Op where
  /-- The blocklist is the one on disk. -/
  | start (ipFilter : Option IpFilter)
  | pause
  | pauseForSeeding
  | resume
  | shutdown
  /-- `add_download` or a start makes a `Download`. -/
  | register
  /-- `find_sources` and `spawn_fetch`, from `add_download` or a resume of fetches. -/
  | spawnFetch (dl : Nat) (lowId : Bool) (found : List FoundSource) (kadSources : List KadSource)
  /-- `maintain_source_reask`; a channel that is not asked answers nothing. -/
  | reaskSources (dl : Nat) (found : List FoundSource) (kadSources : List KadSource)
  /-- A peer answers a source exchange. -/
  | answerSources (dl : Nat) (version : UInt8) (records : List SxSource)
  | ban (dl : Nat) (ips : List IpAddr)
  | foldIn (sweep : Nat)
  | startRound (sweep : Nat) (budgetLeft : Bool) (ordered : List PeerSource)
  | take (sweep : Nat)
  | check (sweep worker : Nat) (parked : Bool)
  | dial (sweep worker : Nat)
  | endSweep (sweep : Nat)
deriving DecidableEq

/-- The pool with what has come in since the last round. -/
def Sweep.foldIn (sw : Sweep) (dl : Download) : List PeerSource :=
  let incoming := dl.sxSources.filterMap PeerSource.fromSx ++ dl.discoveredSources
  ((SourceRegistry.mk sw.pool).addAll
    (incoming.filter fun s => !blocks sw.ipFilter s.addr)).sources

/-- Past the budget only what was never dialled. -/
def Sweep.candidates (sw : Sweep) (budgetLeft : Bool) : List PeerSource :=
  if budgetLeft then sw.pool else sw.pool.filter fun s => s.addr ∉ sw.everDialed

namespace World

/-- A sweep with its download. -/
def sweepAt (w : World) (k : Nat) : Option (Sweep × Download) :=
  w.sweeps[k]?.bind fun sw => w.downloads[sw.dl]?.map fun dl => (sw, dl)

/-- A worker that is about to dial. -/
def dialling (w : World) (k i : Nat) : Option (Sweep × Worker) :=
  w.sweeps[k]?.bind fun sw =>
    sw.workers[i]?.bind fun worker => if worker.cleared then some (sw, worker) else none

def setSweep (w : World) (k : Nat) (sw : Sweep) : World := { w with sweeps := w.sweeps.set k sw }

def setDownload (w : World) (i : Nat) (dl : Download) : World :=
  { w with downloads := w.downloads.set i dl }

def spawnFetch (w : World) (i : Nat) (dl : Download) (sources : List PeerSource) : World :=
  if dl.fetching then w
  else { w.setDownload i { dl with fetching := true } with
    sweeps := w.sweeps ++ [⟨i, w.ipFilter, sources, [], [], []⟩] }

def step (w : World) : Op → Option World
  | .start ipFilter =>
    if w.state = .running then some w else some { w with state := .running, ipFilter }
  | .pause => if w.state = .running then some { w with state := .paused } else some w
  | .pauseForSeeding => if w.state = .running then some { w with state := .seeding } else some w
  | .resume =>
    if w.state = .paused ∨ w.state = .seeding then some { w with state := .running } else some w
  | .shutdown => some { w with state := .stopped }
  | .register => some { w with downloads := w.downloads ++ [⟨false, [], [], []⟩] }
  | .spawnFetch i lowId found kadSources =>
    w.downloads[i]?.map fun dl =>
      w.spawnFetch i dl (findSources w.ipFilter lowId found kadSources true).1.sources
  | .reaskSources i found kadSources =>
    w.downloads[i]?.bind fun dl =>
      if w.state = .running ∧ dl.fetching then
        let discoveredSources := dl.discoveredSources ++ Engine.reaskSources found kadSources
        some (w.setDownload i { dl with discoveredSources })
      else none
  | .answerSources i version records =>
    w.downloads[i]?.map fun dl =>
      let sxSources := dl.sxSources ++ parseAnswerSources version records
      w.setDownload i { dl with sxSources }
  | .ban i ips =>
    w.downloads[i]?.map fun dl => w.setDownload i { dl with banned := dl.banned ++ ips }
  | .foldIn k =>
    (w.sweepAt k).map fun (sw, dl) =>
      (w.setSweep k { sw with pool := sw.foldIn dl }).setDownload sw.dl
        { dl with sxSources := [], discoveredSources := [] }
  | .startRound k budgetLeft ordered =>
    w.sweeps[k]?.bind fun sw =>
      if sw.workers = [] ∧ ordered.Perm (sw.candidates budgetLeft) then
        let everDialed := sw.everDialed ++ ordered.map PeerSource.addr
        some (w.setSweep k { sw with queue := ordered, everDialed })
      else none
  | .take k =>
    (w.sweepAt k).bind fun (sw, dl) =>
      match sw.queue with
      | [] => none
      | src :: queue =>
        let workers := sw.workers ++ [⟨src, dl.banned, false⟩]
        some (w.setSweep k { sw with queue, workers })
  | .check k i parked =>
    (w.sweepAt k).bind fun (sw, dl) =>
      sw.workers[i]?.map fun worker =>
        if dl.isBanned worker.src.addr || parked then
          w.setSweep k { sw with workers := sw.workers.eraseIdx i }
        else w.setSweep k { sw with workers := sw.workers.set i { worker with cleared := true } }
  | .dial k i =>
    (w.dialling k i).map fun (sw, worker) =>
      { w.setSweep k { sw with workers := sw.workers.eraseIdx i } with
        dials := w.dials ++ [⟨worker.src, worker.bans, w.ipFilter⟩] }
  | .endSweep k =>
    (w.sweepAt k).bind fun (sw, dl) =>
      if sw.workers = [] then
        some { w.setDownload sw.dl { dl with fetching := false } with
          sweeps := w.sweeps.eraseIdx k }
      else none

end World

/-! ## Where a dial may go -/

/-- A port at a public unicast address that is neither blocked now nor was banned when the source
    was taken, and no LowID. -/
structure Dial.Ours (d : Dial) : Prop where
  address : ∃ ip port, d.src.addr = .v4 ip port ∧ port ≠ 0 ∧ PublicUnicast ip ∧
    (d.src.origin ≠ .kad → HIGHEST_LOWID ≤ swapBytes ip)
  unblocked : blocks d.ipFilter d.src.addr = false
  unbanned : d.src.addr.ip ∉ d.bans

def World.Ours (w : World) : Prop := ∀ d ∈ w.dials, d.Ours

/-- A dial is not to 0.0.0.0/8, and the blocklist still says of its address what it said when the
    sweep was spawned. -/
def World.Allowed (w : World) : Op → Prop
  | .dial k i => ∀ sw worker, w.dialling k i = some (sw, worker) →
      (∀ ip port, worker.src.addr = .v4 ip port → ¬thisNetwork.Contains ip) ∧
        blocks w.ipFilter worker.src.addr = blocks sw.ipFilter worker.src.addr
  | _ => True

/-! ## What waits to be dialled -/

structure Worker.Sound (ipFilter : Option IpFilter) (worker : Worker) : Prop where
  vetted : worker.src.Vetted ipFilter
  unbanned : worker.cleared = true → worker.src.addr.ip ∉ worker.bans

structure Sweep.Sound (downloads : List Download) (sw : Sweep) : Prop where
  pool : ∀ s ∈ sw.pool, s.Vetted sw.ipFilter
  queue : ∀ s ∈ sw.queue, s.Vetted sw.ipFilter
  workers : ∀ worker ∈ sw.workers, worker.Sound sw.ipFilter
  bans : ∀ worker ∈ sw.workers, ∃ dl, downloads[sw.dl]? = some dl ∧ worker.bans ⊆ dl.banned

structure World.Sound (w : World) : Prop where
  discovered : ∀ dl ∈ w.downloads, ∀ s ∈ dl.discoveredSources, s.Routed
  sweeps : ∀ sw ∈ w.sweeps, sw.Sound w.downloads

/-- The downloads stay where they are, and no ban is lifted. -/
def Later (downloads downloads' : List Download) : Prop :=
  ∀ (i : Nat) (dl : Download), downloads[i]? = some dl →
    ∃ dl', downloads'[i]? = some dl' ∧ dl.banned ⊆ dl'.banned

theorem later_register (downloads : List Download) (dl : Download) :
    Later downloads (downloads ++ [dl]) := by
  intro i old hold
  have hlt : i < downloads.length := (List.getElem?_eq_some_iff.mp hold).1
  exact ⟨old, by rw [List.getElem?_append_left hlt, hold], fun _ h => h⟩

theorem later_set {downloads : List Download} {i : Nat} {dl dl' : Download}
    (hdl : downloads[i]? = some dl) (hbans : dl.banned ⊆ dl'.banned) :
    Later downloads (downloads.set i dl') := by
  intro j old hold
  by_cases hij : i = j
  · subst hij
    obtain rfl := Option.some.inj (hdl.symm.trans hold)
    have hlt : i < downloads.length := (List.getElem?_eq_some_iff.mp hdl).1
    exact ⟨dl', by rw [List.getElem?_set_self hlt], hbans⟩
  · exact ⟨old, by rw [List.getElem?_set_ne hij, hold], fun _ h => h⟩

theorem Sweep.Sound.later {downloads downloads' : List Download} {sw : Sweep}
    (h : sw.Sound downloads) (hlater : Later downloads downloads') : sw.Sound downloads' := by
  refine ⟨h.pool, h.queue, h.workers, fun worker hworker => ?_⟩
  obtain ⟨dl, hdl, hsub⟩ := h.bans worker hworker
  obtain ⟨dl', hdl', hsub'⟩ := hlater sw.dl dl hdl
  exact ⟨dl', hdl', fun ip hip => hsub' (hsub hip)⟩

namespace World

theorem Sound.setDownload {w : World} (h : w.Sound) {i : Nat} {dl dl' : Download}
    (hdl : w.downloads[i]? = some dl) (hbans : dl.banned ⊆ dl'.banned)
    (hrouted : ∀ s ∈ dl'.discoveredSources, s.Routed) : (w.setDownload i dl').Sound := by
  refine ⟨fun other hother => ?_, fun sw hsw => (h.sweeps sw hsw).later (later_set hdl hbans)⟩
  rcases List.mem_or_eq_of_mem_set hother with hother | rfl
  · exact h.discovered other hother
  · exact hrouted

theorem Sound.setSweep {w : World} (h : w.Sound) {k : Nat} {sw : Sweep}
    (hsw : sw.Sound w.downloads) : (w.setSweep k sw).Sound := by
  refine ⟨h.discovered, fun other hother => ?_⟩
  rcases List.mem_or_eq_of_mem_set hother with hother | rfl
  · exact h.sweeps other hother
  · exact hsw

theorem sweepAt_eq_some {w : World} {k : Nat} {sw : Sweep} {dl : Download}
    (h : w.sweepAt k = some (sw, dl)) :
    w.sweeps[k]? = some sw ∧ w.downloads[sw.dl]? = some dl := by
  obtain ⟨sw', hsw, hrest⟩ := Option.bind_eq_some_iff.mp h
  obtain ⟨dl', hdl, heq⟩ := Option.map_eq_some_iff.mp hrest
  cases heq
  exact ⟨hsw, hdl⟩

theorem dialling_eq_some {w : World} {k i : Nat} {sw : Sweep} {worker : Worker}
    (h : w.dialling k i = some (sw, worker)) :
    w.sweeps[k]? = some sw ∧ sw.workers[i]? = some worker ∧ worker.cleared = true := by
  obtain ⟨sw', hsw, hrest⟩ := Option.bind_eq_some_iff.mp h
  obtain ⟨worker', hworker, hcleared⟩ := Option.bind_eq_some_iff.mp hrest
  split_ifs at hcleared with hc
  cases hcleared
  exact ⟨hsw, hworker, hc⟩

/-- The sweep that is stepped, and its download. -/
theorem Sound.stepped {w : World} (h : w.Sound) {k : Nat} {sw : Sweep} {dl : Download}
    (hat : w.sweepAt k = some (sw, dl)) :
    sw.Sound w.downloads ∧ ∀ s ∈ dl.discoveredSources, s.Routed := by
  obtain ⟨hsw, hdl⟩ := sweepAt_eq_some hat
  exact ⟨h.sweeps sw (List.mem_of_getElem? hsw), h.discovered dl (List.mem_of_getElem? hdl)⟩

end World

/-- What is folded in has passed both gates. -/
theorem Sweep.vetted_foldIn {sw : Sweep} {dl : Download}
    (hpool : ∀ s ∈ sw.pool, s.Vetted sw.ipFilter)
    (hrouted : ∀ s ∈ dl.discoveredSources, s.Routed) {s : PeerSource} (h : s ∈ sw.foldIn dl) :
    s.Vetted sw.ipFilter := by
  rcases SourceRegistry.mem_addAll h with hs | hs
  · exact hpool s hs
  · obtain ⟨hincoming, hblocked⟩ := List.mem_filter.mp hs
    refine ⟨?_, by simpa using hblocked⟩
    rcases List.mem_append.mp hincoming with hsx | hdiscovered
    · obtain ⟨x, -, hx⟩ := List.mem_filterMap.mp hsx
      exact PeerSource.routed_fromSx hx
    · exact hrouted s hdiscovered

theorem World.Sound.spawnFetch {w : World} (h : w.Sound) {i : Nat} {dl : Download}
    (hdl : w.downloads[i]? = some dl) {sources : List PeerSource}
    (hsources : ∀ s ∈ sources, s.Vetted w.ipFilter) : (w.spawnFetch i dl sources).Sound := by
  rw [World.spawnFetch]
  split_ifs
  · exact h
  · have hset : (w.setDownload i { dl with fetching := true }).Sound :=
      h.setDownload hdl (fun _ hip => hip) (h.discovered dl (List.mem_of_getElem? hdl))
    refine ⟨hset.discovered, fun sw hsw => ?_⟩
    rcases List.mem_append.mp hsw with hsw | hsw
    · exact hset.sweeps sw hsw
    · obtain rfl := List.mem_singleton.mp hsw
      exact ⟨hsources, by simp, by simp, by simp⟩

theorem World.Sound.step {w w' : World} {op : Op} (h : w.Sound) (hstep : w.step op = some w') :
    w'.Sound := by
  cases op with
  | start | pause | pauseForSeeding | resume =>
    simp only [World.step] at hstep
    split_ifs at hstep <;> cases hstep
    all_goals exact ⟨h.discovered, h.sweeps⟩
  | shutdown =>
    obtain rfl := Option.some.inj hstep
    exact ⟨h.discovered, h.sweeps⟩
  | register =>
    obtain rfl := Option.some.inj hstep
    refine ⟨fun dl hdl => ?_, fun sw hsw => (h.sweeps sw hsw).later (later_register _ _)⟩
    rcases List.mem_append.mp hdl with hdl | hdl
    · exact h.discovered dl hdl
    · obtain rfl := List.mem_singleton.mp hdl
      simp
  | spawnFetch i lowId found kadSources =>
    obtain ⟨dl, hdl, rfl⟩ := Option.map_eq_some_iff.mp hstep
    exact h.spawnFetch hdl fun s hs => vetted_findSources hs
  | reaskSources i found kadSources =>
    obtain ⟨dl, hdl, hsome⟩ := Option.bind_eq_some_iff.mp hstep
    split_ifs at hsome
    obtain rfl := Option.some.inj hsome
    refine h.setDownload hdl (fun _ hip => hip) fun s hs => ?_
    rcases List.mem_append.mp hs with hs | hs
    · exact h.discovered dl (List.mem_of_getElem? hdl) s hs
    · exact routed_reaskSources hs
  | answerSources i version records =>
    obtain ⟨dl, hdl, rfl⟩ := Option.map_eq_some_iff.mp hstep
    exact h.setDownload hdl (fun _ hip => hip) (h.discovered dl (List.mem_of_getElem? hdl))
  | ban i ips =>
    obtain ⟨dl, hdl, rfl⟩ := Option.map_eq_some_iff.mp hstep
    exact h.setDownload hdl (fun _ hip => List.mem_append_left _ hip)
      (h.discovered dl (List.mem_of_getElem? hdl))
  | foldIn k =>
    obtain ⟨⟨sw, dl⟩, hat, rfl⟩ := Option.map_eq_some_iff.mp hstep
    obtain ⟨hsw, hrouted⟩ := h.stepped hat
    have hfold : ({ sw with pool := sw.foldIn dl } : Sweep).Sound w.downloads :=
      ⟨fun s hs => Sweep.vetted_foldIn hsw.pool hrouted hs, hsw.queue, hsw.workers, hsw.bans⟩
    refine (h.setSweep hfold).setDownload (sweepAt_eq_some hat).2 (fun _ hip => hip) ?_
    simp
  | startRound k budgetLeft ordered =>
    obtain ⟨sw, hget, hsome⟩ := Option.bind_eq_some_iff.mp hstep
    split_ifs at hsome with hround
    obtain rfl := Option.some.inj hsome
    have hsw := h.sweeps sw (List.mem_of_getElem? hget)
    refine h.setSweep ⟨hsw.pool, fun s hs => hsw.pool s ?_, hsw.workers, hsw.bans⟩
    have hcandidate := hround.2.mem_iff.mp hs
    rw [Sweep.candidates] at hcandidate
    split_ifs at hcandidate
    · exact hcandidate
    · exact List.mem_of_mem_filter hcandidate
  | take k =>
    obtain ⟨⟨sw, dl⟩, hat, hsome⟩ := Option.bind_eq_some_iff.mp hstep
    cases hqueue : sw.queue with
    | nil => simp [hqueue] at hsome
    | cons src queue =>
      simp only [hqueue, Option.some.injEq] at hsome
      subst hsome
      obtain ⟨hsw, -⟩ := h.stepped hat
      have hvetted := hqueue ▸ hsw.queue
      refine h.setSweep ⟨hsw.pool, fun s hs => hvetted s (List.mem_cons_of_mem src hs), ?_, ?_⟩
      · intro worker hworker
        rcases List.mem_append.mp hworker with hworker | hworker
        · exact hsw.workers worker hworker
        · obtain rfl := List.mem_singleton.mp hworker
          exact ⟨hvetted src List.mem_cons_self, fun hc => by cases hc⟩
      · intro worker hworker
        rcases List.mem_append.mp hworker with hworker | hworker
        · exact hsw.bans worker hworker
        · obtain rfl := List.mem_singleton.mp hworker
          exact ⟨dl, (sweepAt_eq_some hat).2, fun _ hip => hip⟩
  | check k i parked =>
    obtain ⟨⟨sw, dl⟩, hat, hsome⟩ := Option.bind_eq_some_iff.mp hstep
    obtain ⟨worker, hworker, rfl⟩ := Option.map_eq_some_iff.mp hsome
    obtain ⟨hsw, -⟩ := h.stepped hat
    have hmem := List.mem_of_getElem? hworker
    split_ifs with hdrop
    · refine h.setSweep ⟨hsw.pool, hsw.queue, fun other hother => ?_, fun other hother => ?_⟩
      · exact hsw.workers other (List.mem_of_mem_eraseIdx hother)
      · exact hsw.bans other (List.mem_of_mem_eraseIdx hother)
    · -- it is not banned now, so it was not when it was taken
      obtain ⟨dl', hdl', hbans⟩ := hsw.bans worker hmem
      obtain rfl := Option.some.inj ((sweepAt_eq_some hat).2.symm.trans hdl')
      have hunbanned : worker.src.addr.ip ∉ worker.bans := fun hip => hdrop (by
        simp [Download.isBanned, hbans hip])
      refine h.setSweep ⟨hsw.pool, hsw.queue, fun other hother => ?_, fun other hother => ?_⟩
      · rcases List.mem_or_eq_of_mem_set hother with hother | rfl
        · exact hsw.workers other hother
        · exact ⟨(hsw.workers worker hmem).vetted, fun _ => hunbanned⟩
      · rcases List.mem_or_eq_of_mem_set hother with hother | rfl
        · exact hsw.bans other hother
        · exact ⟨dl, hdl', hbans⟩
  | dial k i =>
    obtain ⟨⟨sw, worker⟩, hdialling, rfl⟩ := Option.map_eq_some_iff.mp hstep
    obtain ⟨hget, -, -⟩ := dialling_eq_some hdialling
    have hsw := h.sweeps sw (List.mem_of_getElem? hget)
    have hrest : ({ sw with workers := sw.workers.eraseIdx i } : Sweep).Sound w.downloads :=
      ⟨hsw.pool, hsw.queue, fun other hother => hsw.workers other (List.mem_of_mem_eraseIdx hother),
        fun other hother => hsw.bans other (List.mem_of_mem_eraseIdx hother)⟩
    exact ⟨h.discovered, (h.setSweep hrest).sweeps⟩
  | endSweep k =>
    obtain ⟨⟨sw, dl⟩, hat, hsome⟩ := Option.bind_eq_some_iff.mp hstep
    simp only at hsome
    split_ifs at hsome
    obtain rfl := Option.some.inj hsome
    have hset : (w.setDownload sw.dl { dl with fetching := false }).Sound :=
      h.setDownload (sweepAt_eq_some hat).2 (fun _ hip => hip) (h.stepped hat).2
    exact ⟨hset.discovered, fun other hother => hset.sweeps other (List.mem_of_mem_eraseIdx hother)⟩

/-! ## What is dialled -/

/-- Only a dial adds one, and what it dials is ours exactly if the dial is allowed. -/
theorem World.ours_step_iff {w w' : World} {op : Op} (hsound : w.Sound) (hours : w.Ours)
    (hstep : w.step op = some w') : w'.Ours ↔ w.Allowed op := by
  have hsame : ∀ v : World, v.dials = w.dials → v.Ours := fun v hv d hd => hours d (hv ▸ hd)
  cases op with
  | start | pause | pauseForSeeding | resume =>
    simp only [World.step] at hstep
    split_ifs at hstep <;> cases hstep
    all_goals exact iff_of_true (hsame _ rfl) trivial
  | shutdown | register =>
    obtain rfl := Option.some.inj hstep
    exact iff_of_true (hsame _ rfl) trivial
  | spawnFetch i lowId found kadSources =>
    obtain ⟨dl, -, rfl⟩ := Option.map_eq_some_iff.mp hstep
    refine iff_of_true (hsame _ ?_) trivial
    rw [World.spawnFetch]
    split_ifs <;> rfl
  | reaskSources i found kadSources =>
    obtain ⟨dl, -, hsome⟩ := Option.bind_eq_some_iff.mp hstep
    split_ifs at hsome
    obtain rfl := Option.some.inj hsome
    exact iff_of_true (hsame _ rfl) trivial
  | answerSources | ban | foldIn =>
    obtain ⟨_, -, rfl⟩ := Option.map_eq_some_iff.mp hstep
    exact iff_of_true (hsame _ rfl) trivial
  | startRound k budgetLeft ordered =>
    obtain ⟨sw, -, hsome⟩ := Option.bind_eq_some_iff.mp hstep
    split_ifs at hsome
    obtain rfl := Option.some.inj hsome
    exact iff_of_true (hsame _ rfl) trivial
  | take k =>
    obtain ⟨⟨sw, dl⟩, -, hsome⟩ := Option.bind_eq_some_iff.mp hstep
    cases hqueue : sw.queue with
    | nil => simp [hqueue] at hsome
    | cons src queue =>
      simp only [hqueue, Option.some.injEq] at hsome
      exact iff_of_true (hsame _ (hsome ▸ rfl)) trivial
  | check k i parked =>
    obtain ⟨⟨sw, dl⟩, -, hsome⟩ := Option.bind_eq_some_iff.mp hstep
    obtain ⟨worker, -, rfl⟩ := Option.map_eq_some_iff.mp hsome
    refine iff_of_true (hsame _ ?_) trivial
    split_ifs <;> rfl
  | dial k i =>
    obtain ⟨⟨sw, worker⟩, hdialling, rfl⟩ := Option.map_eq_some_iff.mp hstep
    obtain ⟨hget, hworker, hcleared⟩ := dialling_eq_some hdialling
    have hsw := (hsound.sweeps sw (List.mem_of_getElem? hget)).workers worker
      (List.mem_of_getElem? hworker)
    have hnew : World.Ours { w.setSweep k { sw with workers := sw.workers.eraseIdx i } with
        dials := w.dials ++ [⟨worker.src, worker.bans, w.ipFilter⟩] } ↔
        Dial.Ours ⟨worker.src, worker.bans, w.ipFilter⟩ := by
      refine ⟨fun h => h _ (List.mem_append_right _ List.mem_cons_self), fun h d hd => ?_⟩
      rcases List.mem_append.mp hd with hd | hd
      · exact hours d hd
      · exact List.mem_singleton.mp hd ▸ h
    have hunblocked : blocks sw.ipFilter worker.src.addr = false := hsw.vetted.unblocked
    obtain ⟨ip, port, haddr, hport, hroutable, hlow⟩ := hsw.vetted.routed
    rw [hnew]
    constructor
    · intro h sw' worker' hsame'
      obtain ⟨rfl, rfl⟩ := Prod.mk.inj (Option.some.inj (hdialling.symm.trans hsame'))
      refine ⟨fun ip' port' haddr' => ?_, h.unblocked.trans hunblocked.symm⟩
      obtain ⟨ip'', port'', haddr'', -, hunicast, -⟩ := h.address
      cases haddr'.symm.trans haddr''
      exact hunicast.1
    · intro h
      obtain ⟨hnetwork, hfilter⟩ := h sw worker hdialling
      have hblocks := ((isRoutablePublicV4_iff ip).mp hroutable).2
      exact ⟨⟨ip, port, haddr, hport, ⟨hnetwork ip port haddr, hblocks⟩, hlow⟩,
        hfilter.trans hunblocked, hsw.unbanned hcleared⟩
  | endSweep k =>
    obtain ⟨⟨sw, dl⟩, -, hsome⟩ := Option.bind_eq_some_iff.mp hstep
    simp only at hsome
    split_ifs at hsome
    obtain rfl := Option.some.inj hsome
    exact iff_of_true (hsame _ rfl) trivial

theorem World.allowed_of_none {w : World} {op : Op} (hnone : w.step op = none) : w.Allowed op := by
  cases op with
  | dial k i =>
    intro sw worker hdialling
    simp [World.step, hdialling] at hnone
  | _ => trivial

/-- Every dial of a run goes where we would let it exactly if none is to 0.0.0.0/8, and none to an
    address on which the blocklist has changed since the sweep that dials was spawned. -/
theorem dials_are_ours (ops : List Op) :
    Runs.Always World.step World.Ours .new ops ↔
      Runs.Throughout World.step World.Allowed .new ops := by
  have hsound : World.Sound .new := ⟨by simp [World.new], by simp [World.new]⟩
  have hours : World.Ours .new := by simp [World.Ours, World.new]
  exact Runs.always_iff_throughout (fun _ _ _ => World.Sound.step)
    (fun _ _ => World.allowed_of_none) (fun _ _ _ => World.ours_step_iff) hsound hours ops

/-- One source, found through Kad and dialled; the engine may start anew before the dial. -/
def oneDial (ip : UInt32) (restart : List Op) : List Op :=
  let source : KadSource := ⟨⟨1, 2, 3, 4⟩, 1, some ip, some 4662, none⟩
  let peer : PeerSource := ⟨.v4 ip 4662, some source.clientHash.toHash, none, .kad⟩
  [.start none, .register, .spawnFetch 0 true [] [source], .foldIn 0, .startRound 0 true [peer]] ++
    restart ++ [.take 0, .check 0 0 false, .dial 0 0]

/-- A Kad node sends us to 0.1.2.3, and a source that the user has blocked is dialled by a sweep
    that does not know of it. -/
theorem others_choose :
    ¬Runs.Always World.step World.Ours .new (oneDial 0x00010203 []) ∧
      ¬Runs.Always World.step World.Ours .new (oneDial 0x01020304
        [.shutdown, .start (some ⟨[(0x01020300, 0x010203FF)], by simp⟩)]) := by
  refine ⟨fun h => ?_, fun h => ?_⟩
  · obtain ⟨w, d, hrun, hdials, haddr⟩ : ∃ w d, Runs.run World.step .new (oneDial 0x00010203 []) =
        some w ∧ w.dials = [d] ∧ d.src.addr = .v4 0x00010203 4662 := ⟨_, _, rfl, rfl, rfl⟩
    obtain ⟨ip, port, hip, -, hunicast, -⟩ := (h.run hrun d (by simp [hdials])).address
    cases haddr.symm.trans hip
    exact hunicast.1 (by decide)
  · obtain ⟨w, d, hrun, hdials, hblocked⟩ : ∃ w d, Runs.run World.step .new
        (oneDial 0x01020304 [.shutdown, .start (some ⟨[(0x01020300, 0x010203FF)], by simp⟩)]) =
        some w ∧ w.dials = [d] ∧ blocks d.ipFilter d.src.addr = true := ⟨_, _, rfl, rfl, rfl⟩
    exact absurd (h.run hrun d (by simp [hdials])).unblocked (by simp [hblocked])

end PadMule.Engine.DialGates
