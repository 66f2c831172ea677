import PadMule.Engine.UniqueDest

/-
  `mule-engine/src/engine.rs`: `finish_download`, with the registry, the claim to finish and the
  library around it.

  The tail of a fetch task and every heartbeat may find a download complete; the first to claim it
  verifies and moves it, while the user may cancel. A verification that fails opens the file again
  and releases the claim. One that succeeds takes the download out of the registry before the
  rename, and if that fails the download is nowhere: the claim stays, and nothing holds the
  `.part` before the next launch. So finished downloads stay in sight as long as no rename of one
  fails, and none lands on the file of another (`completed_never_vanishes`).
-/

namespace PadMule.Engine.FinishedDownloads

open FileMap Paths

structure Download extends Backing where
  name : Name
  complete : Bool
  /-- `try_begin_finalize` was won, and `reset_finalize` has not been called. -/
  finalizing : Bool
  registered : Bool
  /-- `cancel_download` has taken it out of the registry. -/
  picked : Bool
deriving DecidableEq

/-- Where a task of `finish_download` stands. -/
inductive Phase where
  | verifying
  | failed -- what it read is not the file; parts are opened again
  | verified -- and not cancelled
  | searching (k : Nat) -- out of the registry, and the first `k` candidates were taken
  | chosen (c : Name) -- what `unique_dest` returned
  | moved (c : Name) (bytes : Bytes) -- `finish_to` returned Ok
  | sharing (c : Name) (bytes : Bytes) -- and it is still not cancelled
  | shared (c : Name) (bytes : Bytes)
  | dropped (c : Name) (bytes : Bytes) -- moved, then cancelled
  | stopped
deriving DecidableEq

namespace Phase

/-- The task has not returned. From `failed` on it does nothing but release the claim. -/
def running : Phase → Bool
  | verifying | failed | verified | searching _ | chosen _ | moved _ _ | sharing _ _ => true
  | shared _ _ | dropped _ _ | stopped => false

def chosen? : Phase → Option Name
  | chosen c => some c
  | _ => none

/-- What the task has moved, and to where. -/
def file? : Phase → Option (Name × Bytes)
  | moved c bytes | sharing c bytes | shared c bytes | dropped c bytes => some (c, bytes)
  | _ => none

end Phase

structure Task where
  download : Nat
  dest : Name
  phase : Phase
deriving DecidableEq

/-- A `SharedFile`, with the download it was. -/
structure Share where
  download : Nat
  path : Name
  bytes : Bytes
deriving DecidableEq

structure World where
  dir : Dir Name Entry
  downloads : List Download
  /-- Whoever has seen a download complete, and is about to claim it. -/
  claimants : List Nat
  tasks : List Task
  library : List Share

inductive Move where
  | add (part : Bytes) (name : Name)
  /-- A fetch closes the last gap. -/
  | completes (j : Nat)
  /-- `is_complete`, asked by the tail of a fetch task or by a heartbeat. -/
  | sees (j : Nat)
  | tryBeginFinalize (k : Nat)
  /-- A read error is a verification that fails. -/
  | judge (i : Nat) (verified : Bool)
  /-- `complete` unless a gap was opened, or once a fetch has closed it. -/
  | resetFinalize (i : Nat) (complete : Bool)
  | leaveRegistry (i : Nat)
  | probe (i : Nat)
  | finishTo (i : Nat)
  /-- `finish_to`, where the rename fails. -/
  | renameFails (i : Nat)
  | recheck (i : Nat)
  | share (i : Nat)
  /-- The three steps of `cancel_download`. -/
  | pick (j : Nat)
  | cancel (j : Nat)
  | discard (j : Nat)

namespace World

def new (dir : Dir Name Entry) : World := ⟨dir, [], [], [], []⟩

def isCancelled (w : World) (j : Nat) : Bool := w.downloads[j]?.any (·.cancelled)

def isPicked (w : World) (j : Nat) : Bool := w.downloads[j]?.any Download.picked

def setPhase (w : World) (i : Nat) (t : Task) (phase : Phase) : World :=
  { w with tasks := w.tasks.set i { t with phase } }

def setDownload (w : World) (j : Nat) (d : Download) : World :=
  { w with downloads := w.downloads.set j d }

/-- One `exists` of the search; with no candidate left it is over. -/
def probe (w : World) (dest : Name) (k : Nat) : Phase :=
  match (candidates dest)[k]? with
  | some c => if (get w.dir c).isSome then .searching (k + 1) else .chosen c
  | none => .chosen dest

/-- Nothing moves for a cancelled download, from a missing `.part` or onto a folder. -/
def finishTo (w : World) (i : Nat) (t : Task) (c : Name) (d : Download) : World :=
  match d.part with
  | none => w.setPhase i t .stopped
  | some bytes =>
    if d.cancelled || get w.dir c = some .folder then w.setPhase i t .stopped
    else
      { (w.setPhase i t (.moved c bytes)).setDownload t.download { d with part := none } with
        dir := write w.dir c (.file bytes) }

def step (w : World) : Move → Option World
  | .add part name => some { w with
      downloads := w.downloads ++ [⟨⟨some part, false⟩, name, false, false, true, false⟩] }
  | .completes j => w.downloads[j]?.map fun d => w.setDownload j { d with complete := true }
  | .sees j => w.downloads[j]?.bind fun d =>
    if d.complete then some { w with claimants := w.claimants ++ [j] } else none
  | .tryBeginFinalize k => w.claimants[k]?.bind fun j => w.downloads[j]?.map fun d =>
    let w := { w with claimants := w.claimants.eraseIdx k }
    if d.finalizing then w
    else
      { w.setDownload j { d with finalizing := true } with
        tasks := w.tasks ++ [⟨j, safeFilename d.name, .verifying⟩] }
  | .judge i verified => w.tasks[i]?.bind fun t =>
    match t.phase with
    | .verifying => some (w.setPhase i t
        (if !verified then .failed else if w.isCancelled t.download then .stopped else .verified))
    | _ => none
  | .resetFinalize i complete => w.tasks[i]?.bind fun t =>
    match t.phase with
    | .failed => w.downloads[t.download]?.map fun d =>
      (w.setPhase i t .stopped).setDownload t.download { d with complete, finalizing := false }
    | _ => none
  | .leaveRegistry i => w.tasks[i]?.bind fun t =>
    match t.phase with
    | .verified => w.downloads[t.download]?.map fun d =>
      (w.setPhase i t (.searching 0)).setDownload t.download { d with registered := false }
    | _ => none
  | .probe i => w.tasks[i]?.bind fun t =>
    match t.phase with
    | .searching k => some (w.setPhase i t (w.probe t.dest k))
    | _ => none
  | .finishTo i => w.tasks[i]?.bind fun t =>
    match t.phase with
    | .chosen c => w.downloads[t.download]?.map (w.finishTo i t c)
    | _ => none
  | .renameFails i => w.tasks[i]?.bind fun t =>
    match t.phase with
    | .chosen _ => some (w.setPhase i t .stopped)
    | _ => none
  | .recheck i => w.tasks[i]?.bind fun t =>
    match t.phase with
    | .moved c bytes => some (w.setPhase i t
        (if w.isCancelled t.download then .dropped c bytes else .sharing c bytes))
    | _ => none
  | .share i => w.tasks[i]?.bind fun t =>
    match t.phase with
    | .sharing c bytes => some { w.setPhase i t (.shared c bytes) with
        library := w.library ++ [⟨t.download, c, bytes⟩] }
    | _ => none
  | .pick j => w.downloads[j]?.bind fun d =>
    if d.registered then some (w.setDownload j { d with registered := false, picked := true })
    else none
  | .cancel j => w.downloads[j]?.bind fun d =>
    if d.picked then some (w.setDownload j { d with cancelled := true }) else none
  | .discard j => w.downloads[j]?.bind fun d =>
    if d.cancelled then some (w.setDownload j { d with part := none }) else none

/-! ## What is asked of them -/

/-- The next claim on it will be won. -/
def Claimable (d : Download) : Prop := d.registered = true ∧ d.finalizing = false

/-- The library has it, with its bytes where the entry says. -/
def Shared (w : World) (j : Nat) : Prop :=
  ∃ s ∈ w.library, s.download = j ∧ get w.dir s.path = some (.file s.bytes)

/-- One task at a time finishes a download; where none does, it is in sight or was cancelled. -/
structure Kept (w : World) : Prop where
  one : ∀ (i k : Nat) (t u : Task), w.tasks[i]? = some t → w.tasks[k]? = some u →
    t.phase.running = true → u.phase.running = true → t.download = u.download → i = k
  inSight : ∀ j d, w.downloads[j]? = some d → d.picked = false →
    (∀ t ∈ w.tasks, t.download = j → t.phase.running = false) → Xor (Claimable d) (w.Shared j)

/-- The rename of `t` to `c` works, and replaces no other file that was moved. What
    `cancel_download` has picked does not matter. -/
def Lands (w : World) (t : Task) (c : Name) : Prop :=
  ∀ d ∈ w.downloads[t.download]?, d.cancelled = false →
    (get w.dir c = some .folder → d.picked = true) ∧
      ∀ u ∈ w.tasks, ∀ f ∈ u.phase.file?, f.1 = c →
        w.isPicked u.download = true ∨ d.part = some f.2

def Ok (w : World) : Move → Prop
  | .finishTo i => ∀ t ∈ w.tasks[i]?, ∀ c ∈ t.phase.chosen?, w.Lands t c
  | .renameFails i => ∀ t ∈ w.tasks[i]?, ∀ _c ∈ t.phase.chosen?, w.isPicked t.download = true
  | _ => True

/-! ## Where a download is -/

/-- What holds of a download while the task that finishes it stands at a phase. -/
def Good (w : World) (d : Download) : Phase → Prop
  | .verifying | .failed | .verified => d.registered = true ∧ d.part.isSome = true
  | .searching _ | .chosen _ => d.registered = false ∧ d.part.isSome = true
  | .moved c bytes | .sharing c bytes =>
    d.registered = false ∧ get w.dir c = some (.file bytes)
  | .shared _ _ | .dropped _ _ | .stopped => False

/-- A download that was not cancelled waits in the registry, is being finished, or is shared. -/
inductive Place (w : World) (j : Nat) (d : Download) : Prop where
  | idle (registered : d.registered = true) (claim : d.finalizing = false)
      (part : d.part.isSome = true)
  | finishing (i : Nat) (t : Task) (ht : w.tasks[i]? = some t) (download : t.download = j)
      (running : t.phase.running = true) (claim : d.finalizing = true) (good : w.Good d t.phase)
  | shared (t : Task) (c : Name) (bytes : Bytes) (ht : t ∈ w.tasks) (download : t.download = j)
      (file : t.phase.file? = some (c, bytes)) (share : ⟨j, c, bytes⟩ ∈ w.library)
      (dir : get w.dir c = some (.file bytes)) (registered : d.registered = false)
      (claim : d.finalizing = true)
      (ended : ∀ u ∈ w.tasks, u.download = j → u.phase.running = false)

structure Inv (w : World) : Prop where
  one : ∀ (i k : Nat) (t u : Task), w.tasks[i]? = some t → w.tasks[k]? = some u →
    t.phase.running = true → u.phase.running = true → t.download = u.download → i = k
  claimed : ∀ t ∈ w.tasks, ∃ d, w.downloads[t.download]? = some d ∧
    (t.phase.running = true → d.finalizing = true)
  listed : ∀ s ∈ w.library, ∃ d, w.downloads[s.download]? = some d ∧ d.registered = false
  unlisted : ∀ (j : Nat) d, w.downloads[j]? = some d →
    (d.cancelled = true → d.picked = true) ∧ (d.picked = true → d.registered = false)
  place : ∀ j d, w.downloads[j]? = some d → d.picked = false → w.Place j d

variable {w : World} {i j : Nat} {t : Task} {d d' : Download}

theorem inv_new (dir : Dir Name Entry) : (new dir).Inv where
  one i k t u h := absurd h (by simp [new])
  claimed t h := absurd h (by simp [new])
  listed s h := absurd h (by simp [new])
  unlisted j d h := absurd h (by simp [new])
  place j d h := absurd h (by simp [new])

theorem Inv.kept (h : w.Inv) : w.Kept where
  one := h.one
  inSight j d hd hpicked hover := by
    cases h.place j d hd hpicked with
    | idle registered claim part =>
      refine .inl ⟨⟨registered, claim⟩, ?_⟩
      rintro ⟨s, hs, rfl, -⟩
      obtain ⟨d', hd', hgone⟩ := h.listed s hs
      obtain rfl := Option.some.inj (hd.symm.trans hd')
      exact Bool.false_ne_true (hgone.symm.trans registered)
    | finishing i t ht download running claim good =>
      have hreturned := hover t (List.mem_of_getElem? ht) download
      exact absurd (hreturned.symm.trans running) Bool.false_ne_true
    | shared t c bytes ht download file share dir registered claim ended =>
      refine .inr ⟨⟨_, share, rfl, dir⟩, fun hclaimable => ?_⟩
      exact Bool.false_ne_true (registered.symm.trans hclaimable.1)

/-- The one task that finishes a download knows where it is. -/
theorem Inv.good (h : w.Inv) (ht : w.tasks[i]? = some t) (hrunning : t.phase.running = true)
    (hd : w.downloads[t.download]? = some d) (hpicked : d.picked = false) :
    d.finalizing = true ∧ w.Good d t.phase := by
  obtain ⟨d', hd', hclaim⟩ := h.claimed t (List.mem_of_getElem? ht)
  obtain rfl := Option.some.inj (hd.symm.trans hd')
  refine ⟨hclaim hrunning, ?_⟩
  cases h.place t.download d hd hpicked with
  | idle registered claim part =>
    exact absurd (claim.symm.trans (hclaim hrunning)) Bool.false_ne_true
  | finishing k u hu download running claim good =>
    obtain rfl := h.one i k t u ht hu hrunning running download.symm
    obtain rfl := Option.some.inj (ht.symm.trans hu)
    exact good
  | shared u c bytes hu download file share dir registered claim ended =>
    have hreturned := ended t (List.mem_of_getElem? ht) rfl
    exact absurd (hreturned.symm.trans hrunning) Bool.false_ne_true

/-- What has left the registry while it was finished is not in it. -/
theorem Inv.unregistered (h : w.Inv) (ht : w.tasks[i]? = some t)
    (hrunning : t.phase.running = true) (hd : w.downloads[t.download]? = some d)
    (hgood : w.Good d t.phase → d.registered = false) : d.registered = false := by
  cases hpicked : d.picked with
  | true => exact (h.unlisted t.download d hd).2 hpicked
  | false => exact hgood (h.good ht hrunning hd hpicked).2

/-- What others do leaves a download where it is. -/
theorem Place.frame {w' : World} (h : w.Place j d)
    (hold : ∀ (i : Nat) (t : Task), w.tasks[i]? = some t → t.download = j →
      w'.tasks[i]? = some t)
    (hnew : ∀ t ∈ w'.tasks, t.download = j → t ∈ w.tasks)
    (hdir : ∀ t ∈ w.tasks, t.download = j → ∀ f ∈ t.phase.file?,
      get w.dir f.1 = some (.file f.2) → get w'.dir f.1 = some (.file f.2))
    (hlibrary : ∀ s ∈ w.library, s ∈ w'.library) : w'.Place j d := by
  cases h with
  | idle registered claim part => exact .idle registered claim part
  | finishing i t ht download running claim good =>
    refine .finishing i t (hold i t ht download) download running claim ?_
    have hfile := hdir t (List.mem_of_getElem? ht) download
    cases hphase : t.phase with
    | moved c bytes | sharing c bytes =>
      rw [hphase] at good hfile
      exact ⟨good.1, hfile (c, bytes) rfl good.2⟩
    | verifying | failed | verified | searching k | chosen c | shared c bytes | dropped c bytes
    | stopped =>
      rw [hphase] at good
      exact good
  | shared t c bytes ht download file share dir registered claim ended =>
    obtain ⟨i, hi⟩ := List.mem_iff_getElem?.mp ht
    exact .shared t c bytes (List.mem_of_getElem? (hold i t hi download)) download file
      (hlibrary _ share) (hdir t ht download (c, bytes) file dir) registered claim
      fun u hu hdownload => ended u (hnew u hu hdownload) hdownload

/-! ## Steps of a task -/

/-- A task keeps its claim where the record of a download is replaced. -/
theorem Inv.claimed_set (h : w.Inv) (hd : w.downloads[j]? = some d)
    (hclaim : d.finalizing = true → d'.finalizing = true) (ht : t ∈ w.tasks) :
    ∃ e, (w.downloads.set j d')[t.download]? = some e ∧
      (t.phase.running = true → e.finalizing = true) := by
  obtain ⟨e, he, hfinal⟩ := h.claimed t ht
  by_cases hj : t.download = j
  · subst hj
    obtain rfl := Option.some.inj (hd.symm.trans he)
    exact ⟨d', Slots.getElem?_set_self hd, fun hrun => hclaim (hfinal hrun)⟩
  · exact ⟨e, (Slots.getElem?_set_ne hj).trans he, hfinal⟩

/-- What is shared stays out of the registry. -/
theorem Inv.listed_set (h : w.Inv) (hd : w.downloads[j]? = some d)
    (hregistered : d.registered = false → d'.registered = false) {s : Share}
    (hs : s ∈ w.library) :
    ∃ e, (w.downloads.set j d')[s.download]? = some e ∧ e.registered = false := by
  obtain ⟨e, he, hgone⟩ := h.listed s hs
  by_cases hj : s.download = j
  · subst hj
    obtain rfl := Option.some.inj (hd.symm.trans he)
    exact ⟨d', Slots.getElem?_set_self hd, hregistered hgone⟩
  · exact ⟨e, (Slots.getElem?_set_ne hj).trans he, hgone⟩

/-- A running task moves on, with its download, and no other download is touched. -/
theorem Inv.task (h : w.Inv) (d' : Download) (phase : Phase) (dir : Dir Name Entry)
    (library : List Share) (ht : w.tasks[i]? = some t) (hrunning : t.phase.running = true)
    (hd : w.downloads[t.download]? = some d) (hpicked : d'.picked = d.picked)
    (hcancelled : d'.cancelled = d.cancelled)
    (hregistered : d.registered = false → d'.registered = false)
    (hclaim : phase.running = true → d'.finalizing = true)
    (hdir : ∀ u ∈ w.tasks, u.download ≠ t.download → w.isPicked u.download = false →
      ∀ f ∈ u.phase.file?, get w.dir f.1 = some (.file f.2) → get dir f.1 = some (.file f.2))
    (hkept : ∀ s ∈ w.library, s ∈ library)
    (hlisted : ∀ s ∈ library, s ∈ w.library ∨ s.download = t.download ∧ d'.registered = false)
    (hplace : d.picked = false → Place ⟨dir, w.downloads.set t.download d', w.claimants,
      w.tasks.set i { t with phase }, library⟩ t.download d') :
    Inv ⟨dir, w.downloads.set t.download d', w.claimants, w.tasks.set i { t with phase },
      library⟩ := by
  constructor
  · intro m n u v hm hn hu hv hsame
    rcases Slots.getElem?_set_cases hm with ⟨rfl, rfl⟩ | ⟨hne, hold⟩
    · rcases Slots.getElem?_set_cases hn with ⟨rfl, -⟩ | ⟨hne', hold'⟩
      · rfl
      · exact absurd (h.one m n t v ht hold' hrunning hv hsame).symm hne'
    · rcases Slots.getElem?_set_cases hn with ⟨rfl, rfl⟩ | ⟨hne', hold'⟩
      · exact absurd (h.one m n u t hold ht hu hrunning hsame) hne
      · exact h.one m n u v hold hold' hu hv hsame
  · intro u hu
    obtain ⟨k, hk⟩ := List.mem_iff_getElem?.mp hu
    rcases Slots.getElem?_set_cases hk with ⟨rfl, rfl⟩ | ⟨hne, hold⟩
    · exact ⟨d', Slots.getElem?_set_self hd, hclaim⟩
    · obtain ⟨e, he, hfinal⟩ := h.claimed u (List.mem_of_getElem? hold)
      by_cases hsame : u.download = t.download
      · refine ⟨d', by rw [hsame]; exact Slots.getElem?_set_self hd, fun hu' => ?_⟩
        exact absurd (h.one k i u t hold ht hu' hrunning hsame) hne
      · exact ⟨e, (Slots.getElem?_set_ne hsame).trans he, hfinal⟩
  · intro s hs
    rcases hlisted s hs with hs | ⟨hsame, hgone⟩
    · exact h.listed_set hd hregistered hs
    · exact ⟨d', by rw [hsame]; exact Slots.getElem?_set_self hd, hgone⟩
  · intro k e he
    rcases Slots.getElem?_set_cases he with ⟨rfl, rfl⟩ | ⟨-, he⟩
    · obtain ⟨hcancel, hpick⟩ := h.unlisted t.download d hd
      rw [hcancelled, hpicked]
      exact ⟨hcancel, fun hp => hregistered (hpick hp)⟩
    · exact h.unlisted k e he
  · intro k e he hp
    rcases Slots.getElem?_set_cases he with ⟨rfl, rfl⟩ | ⟨hne, he⟩
    · exact hplace (hpicked.symm.trans hp)
    · refine (h.place k e he hp).frame (fun m u hm hdownload => ?_) (fun u hu hdownload => ?_)
        (fun u hu hdownload => ?_) hkept
      · have hmi : m ≠ i := by
          rintro rfl
          obtain rfl := Option.some.inj (ht.symm.trans hm)
          exact hne hdownload.symm
        exact (Slots.getElem?_set_ne hmi).trans hm
      · obtain ⟨m, hm⟩ := List.mem_iff_getElem?.mp hu
        rcases Slots.getElem?_set_cases hm with ⟨-, rfl⟩ | ⟨-, hold⟩
        · exact absurd hdownload.symm hne
        · exact List.mem_of_getElem? hold
      · refine hdir u hu (fun hsame => hne (hdownload.symm.trans hsame)) ?_
        rw [isPicked, hdownload, he]
        exact hp

/-- Only the phase changes. -/
theorem Inv.setPhase (h : w.Inv) (ht : w.tasks[i]? = some t) (hrunning : t.phase.running = true)
    {phase : Phase} (hgood : ∀ d, w.downloads[t.download]? = some d → d.picked = false →
      w.Good d t.phase → phase.running = true ∧ w.Good d phase) : (w.setPhase i t phase).Inv := by
  obtain ⟨d, hd, hclaim⟩ := h.claimed t (List.mem_of_getElem? ht)
  have hset : w.downloads.set t.download d = w.downloads := Slots.set_of_getElem? hd
  have htask := h.task d phase w.dir w.library ht hrunning hd rfl rfl id
    (fun _ => hclaim hrunning) (fun _ _ _ _ _ _ => id) (fun _ => id) (fun _ => .inl)
  rw [hset] at htask
  refine htask fun hpicked => ?_
  obtain ⟨hrun, hnew⟩ := hgood d hd hpicked (h.good ht hrunning hd hpicked).2
  exact .finishing i { t with phase } (Slots.getElem?_set_self ht) rfl hrun (hclaim hrunning) hnew

/-- `is_cancelled` is told to the one that `cancel_download` has picked. -/
theorem Inv.picked_of_isCancelled (h : w.Inv) (hd : w.downloads[j]? = some d)
    (hcancelled : w.isCancelled j = true) : d.picked = true := by
  rw [isCancelled, hd] at hcancelled
  exact (h.unlisted j d hd).1 hcancelled

theorem Inv.judge (h : w.Inv) (ht : w.tasks[i]? = some t) (hphase : t.phase = .verifying)
    (verified : Bool) :
    (w.setPhase i t (if !verified then .failed
      else if w.isCancelled t.download then .stopped else .verified)).Inv := by
  refine h.setPhase ht (by rw [hphase]; rfl) fun d hd hpicked hgood => ?_
  rw [hphase] at hgood
  split_ifs with hfailed hcancelled
  · exact ⟨rfl, hgood⟩
  · exact absurd (hpicked.symm.trans (h.picked_of_isCancelled hd hcancelled)) Bool.false_ne_true
  · exact ⟨rfl, hgood⟩

theorem Inv.probe (h : w.Inv) (ht : w.tasks[i]? = some t) {k : Nat}
    (hphase : t.phase = .searching k) : (w.setPhase i t (w.probe t.dest k)).Inv := by
  refine h.setPhase ht (by rw [hphase]; rfl) fun d hd hpicked hgood => ?_
  rw [hphase] at hgood
  unfold World.probe
  split
  · split_ifs
    · exact ⟨rfl, hgood⟩
    · exact ⟨rfl, hgood⟩
  · exact ⟨rfl, hgood⟩

theorem Inv.recheck (h : w.Inv) (ht : w.tasks[i]? = some t) {c : Name} {bytes : Bytes}
    (hphase : t.phase = .moved c bytes) :
    (w.setPhase i t
      (if w.isCancelled t.download then .dropped c bytes else .sharing c bytes)).Inv := by
  refine h.setPhase ht (by rw [hphase]; rfl) fun d hd hpicked hgood => ?_
  rw [hphase] at hgood
  split_ifs with hcancelled
  · exact absurd (hpicked.symm.trans (h.picked_of_isCancelled hd hcancelled)) Bool.false_ne_true
  · exact ⟨rfl, hgood⟩

/-- A task may stop without a move where its download was cancelled. -/
theorem Inv.stop (h : w.Inv) (ht : w.tasks[i]? = some t) (hrunning : t.phase.running = true)
    (hpicked : ∀ d, w.downloads[t.download]? = some d → d.picked = true) :
    (w.setPhase i t .stopped).Inv :=
  h.setPhase ht hrunning fun d hd hnot _ =>
    absurd (hnot.symm.trans (hpicked d hd)) Bool.false_ne_true

/-- The claim is released, on a download that is still registered. -/
theorem Inv.resetFinalize (h : w.Inv) (ht : w.tasks[i]? = some t) (hphase : t.phase = .failed)
    (hd : w.downloads[t.download]? = some d) (complete : Bool) :
    ((w.setPhase i t .stopped).setDownload t.download
      { d with complete, finalizing := false }).Inv := by
  have hrunning : t.phase.running = true := by rw [hphase]; rfl
  refine h.task _ _ _ _ ht hrunning hd rfl rfl id (fun hrun => absurd hrun Bool.false_ne_true)
    (fun _ _ _ _ _ _ => id) (fun _ => id) (fun _ => .inl) fun hpicked => ?_
  have hgood := (h.good ht hrunning hd hpicked).2
  rw [hphase] at hgood
  exact .idle hgood.1 rfl hgood.2

theorem Inv.leaveRegistry (h : w.Inv) (ht : w.tasks[i]? = some t) (hphase : t.phase = .verified)
    (hd : w.downloads[t.download]? = some d) :
    ((w.setPhase i t (.searching 0)).setDownload t.download { d with registered := false }).Inv := by
  have hrunning : t.phase.running = true := by rw [hphase]; rfl
  obtain ⟨e, he, hclaim⟩ := h.claimed t (List.mem_of_getElem? ht)
  obtain rfl := Option.some.inj (hd.symm.trans he)
  refine h.task _ _ _ _ ht hrunning hd rfl rfl (fun _ => rfl) (fun _ => hclaim hrunning)
    (fun _ _ _ _ _ _ => id) (fun _ => id) (fun _ => .inl) fun hpicked => ?_
  have hgood := (h.good ht hrunning hd hpicked).2
  rw [hphase] at hgood
  exact .finishing i { t with phase := .searching 0 } (Slots.getElem?_set_self ht) rfl rfl
    (hclaim hrunning) ⟨rfl, hgood.2⟩

theorem Inv.finishTo (h : w.Inv) (ht : w.tasks[i]? = some t) {c : Name}
    (hphase : t.phase = .chosen c) (hd : w.downloads[t.download]? = some d) (hlands : w.Lands t c) :
    (w.finishTo i t c d).Inv := by
  have hrunning : t.phase.running = true := by rw [hphase]; rfl
  obtain ⟨e, he, hclaim⟩ := h.claimed t (List.mem_of_getElem? ht)
  obtain rfl := Option.some.inj (hd.symm.trans he)
  have hpart (hpicked : d.picked = false) : d.registered = false ∧ d.part.isSome = true := by
    have hgood := (h.good ht hrunning hd hpicked).2
    rwa [hphase] at hgood
  have hstop (hpicked : d.picked = true) : (w.setPhase i t .stopped).Inv :=
    h.stop ht hrunning fun e he => Option.some.inj (hd.symm.trans he) ▸ hpicked
  unfold World.finishTo
  cases hbytes : d.part with
  | none =>
    refine hstop ?_
    by_contra hpicked
    have hsome := (hpart (by simpa using hpicked)).2
    rw [hbytes] at hsome
    exact Bool.false_ne_true hsome
  | some bytes =>
    dsimp only
    split_ifs with hrefused
    · refine hstop ?_
      cases hcancelled : d.cancelled with
      | true => exact (h.unlisted t.download d hd).1 hcancelled
      | false =>
        have hfolder : get w.dir c = some .folder := by simpa [hcancelled] using hrefused
        exact (hlands d hd hcancelled).1 hfolder
    · obtain ⟨hcancelled, -⟩ : d.cancelled = false ∧ get w.dir c ≠ some .folder := by
        simpa using hrefused
      refine h.task _ _ _ _ ht hrunning hd rfl rfl id (fun _ => hclaim hrunning)
        (fun u hu _ hpicked f hf hget => ?_) (fun _ => id) (fun _ => .inl) fun hpicked => ?_
      · rw [get_write]
        split_ifs with hsame
        · -- what stood there was moved for a download that counts: it has the same bytes
          rcases (hlands d hd hcancelled).2 u hu f hf hsame with hpicked' | hpart'
          · exact absurd (hpicked.symm.trans hpicked') Bool.false_ne_true
          · rw [Option.some.inj (hbytes.symm.trans hpart')]
        · exact hget
      · refine .finishing i { t with phase := .moved c bytes } (Slots.getElem?_set_self ht) rfl rfl
          (hclaim hrunning) ⟨(hpart hpicked).1, ?_⟩
        dsimp only
        rw [get_write, if_pos rfl]

theorem Inv.share (h : w.Inv) (ht : w.tasks[i]? = some t) {c : Name} {bytes : Bytes}
    (hphase : t.phase = .sharing c bytes) :
    Inv { w.setPhase i t (.shared c bytes) with
      library := w.library ++ [⟨t.download, c, bytes⟩] } := by
  have hrunning : t.phase.running = true := by rw [hphase]; rfl
  obtain ⟨d, hd, hclaim⟩ := h.claimed t (List.mem_of_getElem? ht)
  have hgone : d.registered = false := h.unregistered ht hrunning hd fun hgood => by
    rw [hphase] at hgood
    exact hgood.1
  have hset : w.downloads.set t.download d = w.downloads := Slots.set_of_getElem? hd
  have htask := h.task d (.shared c bytes) w.dir (w.library ++ [⟨t.download, c, bytes⟩]) ht
    hrunning hd rfl rfl id
    (fun hrun => absurd hrun Bool.false_ne_true) (fun _ _ _ _ _ _ => id)
    (fun _ => List.mem_append_left _) (fun s hs => ?_)
  · rw [hset] at htask
    refine htask fun hpicked => ?_
    have hgood := (h.good ht hrunning hd hpicked).2
    rw [hphase] at hgood
    refine .shared { t with phase := .shared c bytes } c bytes
      (List.mem_of_getElem? (Slots.getElem?_set_self ht)) rfl rfl (by simp) hgood.2 hgone
      (hclaim hrunning) fun u hu hdownload => ?_
    obtain ⟨k, hk⟩ := List.mem_iff_getElem?.mp hu
    rcases Slots.getElem?_set_cases hk with ⟨-, rfl⟩ | ⟨hne, hold⟩
    · rfl
    · by_contra hrun
      exact hne (h.one k i u t hold ht (by simpa using hrun) hrunning hdownload)
  · rcases List.mem_append.mp hs with hs | hs
    · exact .inl hs
    · rw [List.mem_singleton.mp hs]
      exact .inr ⟨rfl, hgone⟩

/-! ## Steps of a download -/

theorem Inv.setClaimants (h : w.Inv) (claimants : List Nat) : Inv { w with claimants } :=
  ⟨h.one, h.claimed, h.listed, h.unlisted, fun j d hd hpicked =>
    (h.place j d hd hpicked).frame (fun _ _ ht _ => ht) (fun _ ht _ => ht) (fun _ _ _ _ _ => id)
      fun _ => id⟩

theorem good_congr (hregistered : d'.registered = d.registered) (hpart : d'.part = d.part)
    (phase : Phase) : w.Good d' phase ↔ w.Good d phase := by
  cases phase <;> simp only [Good, hregistered, hpart]

/-- One that stays where it is, unless `cancel_download` has it. -/
theorem Inv.setDownload (h : w.Inv) (hd : w.downloads[j]? = some d)
    (hclaim : d'.finalizing = d.finalizing)
    (hregistered : d.registered = false → d'.registered = false)
    (hunlisted : (d'.cancelled = true → d'.picked = true) ∧
      (d'.picked = true → d'.registered = false))
    (hsame : d'.picked = false → d.picked = false ∧ d'.registered = d.registered ∧
      d'.part = d.part) : (w.setDownload j d').Inv := by
  constructor
  · exact h.one
  · intro t ht
    exact h.claimed_set hd (fun hfinal => hclaim.trans hfinal) ht
  · intro s hs
    exact h.listed_set hd hregistered hs
  · intro k e he
    rcases Slots.getElem?_set_cases he with ⟨-, rfl⟩ | ⟨-, he⟩
    · exact hunlisted
    · exact h.unlisted k e he
  · intro k e he hpicked
    rcases Slots.getElem?_set_cases he with ⟨rfl, rfl⟩ | ⟨-, he⟩
    · obtain ⟨hp, hreg, hpart⟩ := hsame hpicked
      cases h.place k d hd hp with
      | idle registered claim part =>
        exact .idle (hreg.trans registered) (hclaim.trans claim) (hpart ▸ part)
      | finishing i t ht download running claim good =>
        exact .finishing i t ht download running (hclaim.trans claim)
          ((good_congr hreg hpart t.phase).mpr good)
      | shared t c bytes ht download file share dir registered claim ended =>
        exact .shared t c bytes ht download file share dir (hreg.trans registered)
          (hclaim.trans claim) ended
    · exact (h.place k e he hpicked).frame (fun _ _ ht _ => ht) (fun _ ht _ => ht)
        (fun _ _ _ _ _ => id) fun _ => id

theorem Inv.add (h : w.Inv) (part : Bytes) (name : Name) :
    Inv { w with
      downloads := w.downloads ++ [⟨⟨some part, false⟩, name, false, false, true, false⟩] } := by
  constructor
  · exact h.one
  · intro t ht
    obtain ⟨d, hd, hclaim⟩ := h.claimed t ht
    exact ⟨d, Slots.getElem?_concat_old hd, hclaim⟩
  · intro s hs
    obtain ⟨d, hd, hgone⟩ := h.listed s hs
    exact ⟨d, Slots.getElem?_concat_old hd, hgone⟩
  · intro j d hd
    rcases Slots.getElem?_concat_cases hd with hd | ⟨-, rfl⟩
    · exact h.unlisted j d hd
    · exact ⟨fun hcancelled => absurd hcancelled Bool.false_ne_true,
        fun hpicked => absurd hpicked Bool.false_ne_true⟩
  · intro j d hd hpicked
    rcases Slots.getElem?_concat_cases hd with hd | ⟨-, rfl⟩
    · exact (h.place j d hd hpicked).frame (fun _ _ ht _ => ht) (fun _ ht _ => ht)
        (fun _ _ _ _ _ => id) fun _ => id
    · exact .idle rfl rfl rfl

/-- A claim that is won starts the one task of its download. -/
theorem Inv.claim (h : w.Inv) (hd : w.downloads[j]? = some d) (hfree : d.finalizing = false)
    (dest : Name) : Inv { w.setDownload j { d with finalizing := true } with
      tasks := w.tasks ++ [⟨j, dest, .verifying⟩] } := by
  have hnone (u : Task) (hu : u ∈ w.tasks) (hrunning : u.phase.running = true) :
      u.download ≠ j := by
    rintro rfl
    obtain ⟨e, he, hclaim⟩ := h.claimed u hu
    obtain rfl := Option.some.inj (hd.symm.trans he)
    exact Bool.false_ne_true (hfree.symm.trans (hclaim hrunning))
  constructor
  · intro i k t u hi hk ht hu hsame
    rcases Slots.getElem?_concat_cases hi with hi | ⟨rfl, rfl⟩
    · rcases Slots.getElem?_concat_cases hk with hk | ⟨rfl, rfl⟩
      · exact h.one i k t u hi hk ht hu hsame
      · exact absurd hsame (hnone t (List.mem_of_getElem? hi) ht)
    · rcases Slots.getElem?_concat_cases hk with hk | ⟨rfl, -⟩
      · exact absurd hsame.symm (hnone u (List.mem_of_getElem? hk) hu)
      · rfl
  · intro t ht
    rcases List.mem_append.mp ht with ht | ht
    · exact h.claimed_set hd (fun _ => rfl) ht
    · rw [List.mem_singleton.mp ht]
      exact ⟨_, Slots.getElem?_set_self hd, fun _ => rfl⟩
  · intro s hs
    refine h.listed_set hd ?_ hs
    exact id
  · intro k e he
    rcases Slots.getElem?_set_cases he with ⟨rfl, rfl⟩ | ⟨-, he⟩
    · exact h.unlisted k d hd
    · exact h.unlisted k e he
  · intro k e he hpicked
    rcases Slots.getElem?_set_cases he with ⟨rfl, rfl⟩ | ⟨hne, he⟩
    · cases h.place k d hd hpicked with
      | idle registered claim part =>
        exact .finishing w.tasks.length ⟨k, dest, .verifying⟩ Slots.getElem?_concat_new rfl rfl rfl
          ⟨registered, part⟩
      | finishing i t ht download running claim good =>
        exact absurd (hfree.symm.trans claim) Bool.false_ne_true
      | shared t c bytes ht download file share dir registered claim ended =>
        exact absurd (hfree.symm.trans claim) Bool.false_ne_true
    · refine (h.place k e he hpicked).frame (fun _ _ ht _ => Slots.getElem?_concat_old ht)
        (fun t ht hdownload => ?_) (fun _ _ _ _ _ => id) fun _ => id
      rcases List.mem_append.mp ht with ht | ht
      · exact ht
      · rw [List.mem_singleton.mp ht] at hdownload
        exact absurd hdownload.symm hne

/-! ## Runs -/

theorem Inv.step {w' : World} {m : Move} (h : w.Inv) (hok : w.Ok m) (hstep : w.step m = some w') :
    w'.Inv := by
  cases m with
  | add part name =>
    cases hstep
    exact h.add part name
  | completes j =>
    obtain ⟨d, hd, rfl⟩ := Option.map_eq_some_iff.mp hstep
    exact h.setDownload hd rfl id (h.unlisted j d hd) fun hpicked => ⟨hpicked, rfl, rfl⟩
  | sees j =>
    obtain ⟨d, hd, hstep⟩ := Option.bind_eq_some_iff.mp hstep
    split_ifs at hstep
    cases hstep
    exact h.setClaimants _
  | tryBeginFinalize k =>
    obtain ⟨j, -, hstep⟩ := Option.bind_eq_some_iff.mp hstep
    obtain ⟨d, hd, rfl⟩ := Option.map_eq_some_iff.mp hstep
    dsimp only
    split_ifs with hfree
    · exact h.setClaimants _
    · exact (h.setClaimants (w.claimants.eraseIdx k)).claim hd (by simpa using hfree) _
  | judge i verified =>
    obtain ⟨t, ht, hstep⟩ := Option.bind_eq_some_iff.mp hstep
    split at hstep
    · cases hstep
      exact h.judge ht ‹_› verified
    · cases hstep
  | resetFinalize i complete =>
    obtain ⟨t, ht, hstep⟩ := Option.bind_eq_some_iff.mp hstep
    split at hstep
    · obtain ⟨d, hd, rfl⟩ := Option.map_eq_some_iff.mp hstep
      exact h.resetFinalize ht ‹_› hd complete
    · cases hstep
  | leaveRegistry i =>
    obtain ⟨t, ht, hstep⟩ := Option.bind_eq_some_iff.mp hstep
    split at hstep
    · obtain ⟨d, hd, rfl⟩ := Option.map_eq_some_iff.mp hstep
      exact h.leaveRegistry ht ‹_› hd
    · cases hstep
  | probe i =>
    obtain ⟨t, ht, hstep⟩ := Option.bind_eq_some_iff.mp hstep
    split at hstep
    · cases hstep
      exact h.probe ht ‹_›
    · cases hstep
  | finishTo i =>
    obtain ⟨t, ht, hstep⟩ := Option.bind_eq_some_iff.mp hstep
    split at hstep
    · rename_i c hphase
      obtain ⟨d, hd, rfl⟩ := Option.map_eq_some_iff.mp hstep
      exact h.finishTo ht hphase hd (hok t ht c (by rw [hphase]; rfl))
    · cases hstep
  | renameFails i =>
    obtain ⟨t, ht, hstep⟩ := Option.bind_eq_some_iff.mp hstep
    split at hstep
    · rename_i c hphase
      cases hstep
      have hpicked := hok t ht c (by rw [hphase]; rfl)
      refine h.stop ht (by rw [hphase]; rfl) fun d hd => ?_
      rwa [isPicked, hd] at hpicked
    · cases hstep
  | recheck i =>
    obtain ⟨t, ht, hstep⟩ := Option.bind_eq_some_iff.mp hstep
    split at hstep
    · cases hstep
      exact h.recheck ht ‹_›
    · cases hstep
  | share i =>
    obtain ⟨t, ht, hstep⟩ := Option.bind_eq_some_iff.mp hstep
    split at hstep
    · cases hstep
      exact h.share ht ‹_›
    · cases hstep
  | pick j =>
    obtain ⟨d, hd, hstep⟩ := Option.bind_eq_some_iff.mp hstep
    split_ifs at hstep
    cases hstep
    exact h.setDownload hd rfl (fun _ => rfl) ⟨fun _ => rfl, fun _ => rfl⟩
      fun hpicked => absurd hpicked.symm Bool.false_ne_true
  | cancel j =>
    obtain ⟨d, hd, hstep⟩ := Option.bind_eq_some_iff.mp hstep
    split_ifs at hstep with hpicked
    cases hstep
    exact h.setDownload hd rfl id ⟨fun _ => hpicked, (h.unlisted j d hd).2⟩
      fun hnot => absurd (hnot.symm.trans hpicked) Bool.false_ne_true
  | discard j =>
    obtain ⟨d, hd, hstep⟩ := Option.bind_eq_some_iff.mp hstep
    split_ifs at hstep with hcancelled
    cases hstep
    have hpicked := (h.unlisted j d hd).1 hcancelled
    exact h.setDownload hd rfl id (h.unlisted j d hd)
      fun hnot => absurd (hnot.symm.trans hpicked) Bool.false_ne_true

end World

open World

/-- As long as no rename of a finished download fails or lands on another one's file, every
    download that was not cancelled can be claimed again, or is shared and where it should be. -/
theorem completed_never_vanishes (dir : Dir Name Entry) (moves : List Move)
    (hok : Runs.Throughout step Ok (.new dir) moves) :
    Runs.Always step Kept (.new dir) moves :=
  Runs.always_of_throughout (fun _ _ _ h hok => h.step hok) (fun _ h => h.kept) (inv_new dir) hok

instance (w : World) (t : Task) (c : Name) : Decidable (w.Lands t c) :=
  inferInstanceAs (Decidable (∀ d ∈ w.downloads[t.download]?, d.cancelled = false →
    (get w.dir c = some .folder → d.picked = true) ∧
      ∀ u ∈ w.tasks, ∀ f ∈ u.phase.file?, f.1 = c →
        w.isPicked u.download = true ∨ d.part = some f.2))

instance (w : World) : (m : Move) → Decidable (w.Ok m)
  | .finishTo i => inferInstanceAs (Decidable (∀ t ∈ w.tasks[i]?, ∀ c ∈ t.phase.chosen?,
      w.Lands t c))
  | .renameFails i => inferInstanceAs (Decidable (∀ t ∈ w.tasks[i]?, ∀ _c ∈ t.phase.chosen?,
      w.isPicked t.download = true))
  | .add .. | .completes _ | .sees _ | .tryBeginFinalize _ | .judge .. | .resetFinalize .. |
    .leaveRegistry _ | .probe _ | .recheck _ | .share _ | .pick _ | .cancel _ | .discard _ =>
    .isTrue trivial

/-- A fetch task and a heartbeat see it complete; the first verification fails, the second one
    does not. -/
def claimedTwice : List Move :=
  [.add [1] ['a'], .completes 0, .sees 0, .sees 0, .tryBeginFinalize 0, .judge 0 false,
    .resetFinalize 0 false, .completes 0, .tryBeginFinalize 0, .judge 1 true, .leaveRegistry 1,
    .probe 1, .finishTo 1, .recheck 1, .share 1]

theorem completed_never_vanishes_twice :
    ∃ w, Runs.run step (.new []) claimedTwice = some w ∧ w.Kept ∧ w.Shared 0 := by
  have hrun : ∃ w, Runs.run step (.new []) claimedTwice = some w ∧ w.library = [⟨0, ['a'], [1]⟩] ∧
      get w.dir ['a'] = some (.file [1]) := ⟨_, rfl, rfl, rfl⟩
  obtain ⟨w, hw, hlibrary, hfile⟩ := hrun
  have hkept := completed_never_vanishes [] claimedTwice (by decide +kernel)
  refine ⟨w, hw, hkept.run hw, ⟨0, ['a'], [1]⟩, ?_, rfl, hfile⟩
  rw [hlibrary]
  exact List.mem_singleton_self _

/-- The same, but the disk refuses the rename. -/
def refusedRename : List Move :=
  [.add [1] ['a'], .completes 0, .sees 0, .tryBeginFinalize 0, .judge 0 true, .leaveRegistry 0,
    .probe 0, .renameFails 0]

/-- Two downloads choose a name before either is moved. -/
def chosenTwice : List Move :=
  [.add [1] ['a'], .add [2] ['a'], .completes 0, .completes 1, .sees 0, .sees 1,
    .tryBeginFinalize 0, .tryBeginFinalize 0, .judge 0 true, .judge 1 true, .leaveRegistry 0,
    .leaveRegistry 1, .probe 0, .probe 1, .finishTo 0, .recheck 0, .share 0, .finishTo 1]

/-- Neither registered nor shared, and shared without its bytes. -/
theorem finished_download_vanishes :
    ¬ Runs.Always step Kept (.new []) refusedRename ∧
      ¬ Runs.Always step Kept (.new []) chosenTwice := by
  refine ⟨fun h => ?_, fun h => ?_⟩
  · obtain ⟨w, hrun, d, hd, hpicked, hregistered, hlibrary, htasks⟩ :
        ∃ w, Runs.run step (.new []) refusedRename = some w ∧ ∃ d, w.downloads[0]? = some d ∧
          d.picked = false ∧ d.registered = false ∧ w.library = [] ∧
            ∀ t ∈ w.tasks, t.download = 0 → t.phase.running = false :=
      ⟨_, rfl, _, rfl, rfl, rfl, rfl, by decide⟩
    rcases (h.run hrun).inSight 0 d hd hpicked htasks with ⟨hclaimable, -⟩ | ⟨⟨s, hs, -⟩, -⟩
    · exact Bool.false_ne_true (hregistered.symm.trans hclaimable.1)
    · rw [hlibrary] at hs
      exact List.not_mem_nil hs
  · obtain ⟨w, hrun, d, hd, hpicked, hregistered, hlibrary, hfile, htasks⟩ :
        ∃ w, Runs.run step (.new []) chosenTwice = some w ∧ ∃ d, w.downloads[0]? = some d ∧
          d.picked = false ∧ d.registered = false ∧ w.library = [⟨0, ['a'], [1]⟩] ∧
            get w.dir ['a'] = some (.file [2]) ∧
              ∀ t ∈ w.tasks, t.download = 0 → t.phase.running = false :=
      ⟨_, rfl, _, rfl, rfl, rfl, rfl, rfl, by decide⟩
    rcases (h.run hrun).inSight 0 d hd hpicked htasks with ⟨hclaimable, -⟩ | ⟨⟨s, hs, -, hbytes⟩, -⟩
    · exact Bool.false_ne_true (hregistered.symm.trans hclaimable.1)
    · rw [hlibrary] at hs
      obtain rfl := List.mem_singleton.mp hs
      exact absurd (hfile.symm.trans hbytes) (by decide)

end PadMule.Engine.FinishedDownloads
