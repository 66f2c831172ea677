import PadMule.Engine.EndedDownload
import PadMule.Engine.ServerLogin

/-
  `mule-engine/src/engine.rs`: which `Download`s are alive over starts and stops, and who holds
  them.

  A start opens every part file of the config dir and puts the new `Download`s in place of the
  registry. Pause and shutdown save what is registered and end the listener, but neither the fetch
  tasks nor the sessions that run; these go on with the `Download`s they hold. So at a start from
  any state but `Running` there may be an older `Download` at the index of a new one. A cancelled or
  finished one frees its index while it may still be held, too.

  At most one live `Download` is at an index, none is registered under the hash of another, and each
  has the files it saved last, in every state of a run, exactly if no start and no `add_download`
  comes upon one of those that are held (`one_live_download`).
-/

namespace PadMule.Engine.LiveDownloads

open Files PadMule.Proto FileMap

variable (md4 : Bytes → Hash16)

/-- What a task does with the `Download` it holds. -/
inductive Role where
  | fetch
  /-- `finish_download` up to where it leaves the registry. -/
  | verify
  | move
  /-- An inbound session, or any other snapshot of the registry. -/
  | session
deriving DecidableEq

structure Holder where
  dl : Nat
  role : Role
deriving DecidableEq

/-- The call that has the engine, with the `Download`s that it still has to do. -/
inductive Call where
  | idle
  /-- `start` has opened these and not put them into the registry yet. -/
  | loading (opened : List Nat)
  /-- `resume_fetches`, or the end of `add_download`. -/
  | driving (pending : List Nat)
  /-- `persist_downloads`, on the way to a state. -/
  | flushing (pending : List Nat) (next : EngineState)
  /-- `cancel_download` has yet to delete the files. -/
  | discarding (n : Nat)
deriving DecidableEq

/-- `downloads` are all that the process ever held, by their number. -/
structure World where
  downloads : HeldWorld
  state : EngineState
  registry : List Nat
  call : Call
  tasks : List Holder
  fetching : List Nat
  finalizing : List Nat

inductive Op where
  /-- `start` up to the registry. -/
  | start
  | register
  | pause
  | pauseForSeeding
  | resume
  | shutdown
  /-- One `persist`, and behind the last one the new state. -/
  | flush
  /-- `resume_fetches` of a start or a resume, or a later retry. -/
  | resumeFetches (picked : List Nat)
  /-- The next of them; without a source it is passed over. -/
  | spawnFetch (found : Bool)
  | addDownload (hash : Hash16) (size : UInt64) (name : Bytes)
  | cancelDownload (hash : Hash16)
  | discardFiles
  | openSession
  /-- A task takes one step of a transfer. -/
  | transfer (task : Nat) (move : HeldMove)
  /-- By a fetch task, or by `finalize_completed`. -/
  | beginFinalize (n : Nat)
  | verified (task : Nat) (ok : Bool)
  | finishTo (task : Nat)
  | endTask (task : Nat)

/-- What a task may do to the `Download` it holds before its end. -/
def isTransfer : HeldMove → Bool
  | .writeAndSync .. | .closeGap .. | .save .. | .applyAichRecovery .. => true
  | .create .. | .persist _ | .finishTo _ | .cancel _ | .discardFiles _ => false

/-- What the call that runs holds of the `Download`s that are or were registered. -/
def Call.holds : Call → List Nat
  | .idle | .loading _ => []
  | .driving pending | .flushing pending _ => pending
  | .discarding n => [n]

/-- `PartStore::open` and `Download::new`. -/
def opened (dir : ConfigDir) (part : Nat × PartStore) : HeldDownload :=
  ⟨part.1, part.2, (get dir (fileName part.1 .met)).getD [], 0, false, false⟩

namespace World

def new (dir : ConfigDir) : World := ⟨⟨dir, []⟩, .stopped, [], .idle, [], [], []⟩

def index (w : World) (n : Nat) : Option Nat := w.downloads.held[n]?.map HeldDownload.index

def hash (w : World) (n : Nat) : Option Hash16 :=
  w.downloads.held[n]?.map fun h => h.store.pf.hash

/-- Registered, or held by a task or by the call that runs. -/
def live (w : World) : List Nat := w.registry ++ w.tasks.map Holder.dl ++ w.call.holds

/-- `size == 0`, or `AlreadyAdded`. -/
def refuses (w : World) (hash : Hash16) (size : UInt64) : Bool :=
  size = 0 || w.registry.any fun n => w.hash n = some hash

def start (w : World) : World :=
  let parts := resumeDownloads w.downloads.dir
  { w with
    downloads := ⟨w.downloads.dir, w.downloads.held ++ parts.map (opened w.downloads.dir)⟩
    call := .loading (List.range' w.downloads.held.length parts.length) }

def flush (w : World) : List Nat → EngineState → Option World
  | [], next => some { w with state := next, call := .idle }
  | n :: pending, next => (w.downloads.step md4 (.persist n)).map fun downloads =>
    { w with downloads, call := .flushing pending next }

/-- `try_begin_fetch`, and the task. -/
def spawnFetch (w : World) (found : Bool) : List Nat → World
  | [] => { w with call := .idle }
  | n :: pending =>
    if found && n ∉ w.fetching then
      { w with
        call := .driving pending
        fetching := n :: w.fetching
        tasks := w.tasks ++ [⟨n, .fetch⟩] }
    else { w with call := .driving pending }

def addDownload (w : World) (hash : Hash16) (size : UInt64) (name : Bytes) : Option World :=
  if w.refuses hash size then some w
  else (w.downloads.step md4 (.create hash size name)).map fun downloads =>
    let n := w.downloads.held.length
    { w with downloads, registry := w.registry ++ [n], call := .driving [n] }

def cancelDownload (w : World) (hash : Hash16) : Option World :=
  match w.registry.find? fun n => w.hash n = some hash with
  | none => some w
  | some n => (w.downloads.step md4 (.cancel n)).map fun downloads =>
    { w with downloads, registry := w.registry.erase n, call := .discarding n }

def isComplete (w : World) (n : Nat) : Bool :=
  w.downloads.held[n]?.any fun h => h.store.pf.isComplete

def isCancelled (w : World) (n : Nat) : Bool := w.downloads.held[n]?.any HeldDownload.cancelled

def beginFinalize (w : World) (n : Nat) : Option World :=
  if (n ∈ w.registry ∨ ⟨n, .fetch⟩ ∈ w.tasks) ∧ w.isComplete n ∧ n ∉ w.finalizing then
    some { w with finalizing := n :: w.finalizing, tasks := w.tasks ++ [⟨n, .verify⟩] }
  else none

/-- What does not verify is re-opened by its task before this, and stays registered. -/
def verified (w : World) (task : Nat) (ok : Bool) : Option World :=
  match w.tasks[task]? with
  | some ⟨n, .verify⟩ => some <|
    if !ok then
      { w with finalizing := w.finalizing.erase n, tasks := w.tasks.eraseIdx task }
    else if w.isCancelled n then { w with tasks := w.tasks.eraseIdx task }
    else { w with registry := w.registry.filter (· ≠ n), tasks := w.tasks.set task ⟨n, .move⟩ }
  | _ => none

def finishTo (w : World) (task : Nat) : Option World :=
  match w.tasks[task]? with
  | some ⟨n, .move⟩ => (w.downloads.step md4 (.finishTo n)).map fun downloads =>
    { w with downloads, tasks := w.tasks.eraseIdx task }
  | _ => none

def transfer (w : World) (task : Nat) (move : HeldMove) : Option World :=
  if isTransfer move ∧ (w.tasks[task]?.map Holder.dl) = move.target then
    (w.downloads.step md4 move).map fun downloads => { w with downloads }
  else none

/-- A fetch task gives its slot back however it ends. -/
def endTask (w : World) (task : Nat) : Option World :=
  match w.tasks[task]? with
  | some ⟨n, .fetch⟩ =>
    some { w with fetching := w.fetching.erase n, tasks := w.tasks.eraseIdx task }
  | some ⟨_, .session⟩ => some { w with tasks := w.tasks.eraseIdx task }
  | _ => none

/-- A call of the engine waits for the one that runs. -/
def step (w : World) (op : Op) : Option World :=
  match w.call, op with
  | .idle, .start => some (if w.state = .running then w else w.start)
  | .loading opened, .register =>
    some { w with registry := opened, call := .idle, state := .running }
  | .idle, .pause =>
    some (if w.state = .running then { w with call := .flushing w.registry .paused } else w)
  | .idle, .pauseForSeeding =>
    some (if w.state = .running then { w with call := .flushing w.registry .seeding } else w)
  | .idle, .resume =>
    some (if w.state = .paused ∨ w.state = .seeding then { w with state := .running } else w)
  | .idle, .shutdown => some { w with call := .flushing w.registry .stopped }
  | .flushing pending next, .flush => w.flush md4 pending next
  | .idle, .resumeFetches picked =>
    if w.state = .running then
      some { w with call := .driving (picked.filter fun n => n ∈ w.registry ∧ n ∉ w.fetching) }
    else none
  | .driving pending, .spawnFetch found => some (w.spawnFetch found pending)
  | .idle, .addDownload hash size name => w.addDownload md4 hash size name
  | .idle, .cancelDownload hash => w.cancelDownload md4 hash
  | .discarding n, .discardFiles => (w.downloads.step md4 (.discardFiles n)).map fun downloads =>
    { w with downloads, call := .idle }
  | _, .openSession => some { w with tasks := w.tasks ++ w.registry.map fun n => ⟨n, .session⟩ }
  | _, .transfer task move => w.transfer md4 task move
  | _, .beginFinalize n => w.beginFinalize n
  | _, .verified task ok => w.verified task ok
  | _, .finishTo task => w.finishTo md4 task
  | _, .endTask task => w.endTask task
  | _, _ => none

end World

/-! ## What must hold -/

/-- The data file is there, and the met is the one that this `Download` saved or read last. -/
def Intact (dir : ConfigDir) (h : HeldDownload) : Prop :=
  get dir (fileName h.index .met) = some h.met ∧ (get dir (fileName h.index .part)).isSome

instance (dir : ConfigDir) (h : HeldDownload) : Decidable (Intact dir h) :=
  inferInstanceAs (Decidable (_ ∧ _))

namespace World

/-- Unless it has moved or deleted its files itself. -/
def Keeps (w : World) (n : Nat) : Prop :=
  ∀ h ∈ w.downloads.held[n]?, h.ended = false → Intact w.downloads.dir h

/-- One live `Download` for each part file, each with its own progress on disk. -/
structure Good (w : World) : Prop where
  apart : ∀ n ∈ w.live, ∀ m ∈ w.live, w.index n = w.index m → n = m
  hashes : (w.registry.map w.hash).Nodup
  keeps : ∀ n ∈ w.live, w.Keeps n

/-- What a start has opened are different files of different hashes, still as they were read, and
    no task holds one of them already. -/
def Unclaimed (w : World) (opened : List Nat) : Prop :=
  (opened.map w.index).Nodup ∧ (opened.map w.hash).Nodup ∧ (∀ n ∈ opened, w.Keeps n) ∧
    ∀ t ∈ w.tasks, ∀ n ∈ opened, w.index t.dl ≠ w.index n

def Allowed (w : World) : Op → Prop
  | .register => ∀ opened, w.call = .loading opened → w.Unclaimed opened
  | .addDownload hash size _ => w.call = .idle → w.refuses hash size = false →
      ∀ n ∈ w.live, w.index n ≠ some (nextPartIndex w.downloads.dir)
  | _ => True

end World

/-! ## What one move of a `Download` can do -/

theorem hash_applyResults (results : List (LeafSpan × Bool)) (pf : PartFile) :
    (applyResults pf results).hash = pf.hash := by
  unfold applyResults
  induction results generalizing pf with
  | nil => rfl
  | cons r results ih =>
    rw [List.foldl_cons, ih]
    split_ifs
    · exact PartFile.hash_fillGap ..
    · exact PartFile.hash_reopenRange ..

theorem hash_foldl_apply (ops : List (StoreOp × Bytes)) (s : PartStore) :
    (ops.foldl (fun s op => (op.1.apply md4 s op.2).1) s).pf.hash = s.pf.hash := by
  induction ops generalizing s with
  | nil => rfl
  | cons op ops ih => rw [List.foldl_cons, ih, StoreOp.hash_apply]

/-- Only the files of its own index change; it keeps its index and its hash, stays ended, and if it
    is not ended it has its files as it had them before. -/
structure Moves (w w' : HeldWorld) (n : Nat) (d d' : HeldDownload) (ops : List FileOp) : Prop where
  was : w.held[n]? = some d
  held : w'.held = w.held.set n d'
  dir : w'.dir = run ops w.dir
  onIndex : OnIndex d.index ops
  index : d'.index = d.index
  hash : d'.store.pf.hash = d.store.pf.hash
  ended : d'.ended = false → d.ended = false
  intact : d'.ended = false → Intact w.dir d → Intact (run ops w.dir) d'

section

variable {w w' : HeldWorld} {n : Nat} {d d' : HeldDownload}

theorem moves_put (hn : w.held[n]? = some d) {ops : List FileOp} (hops : OnIndex d.index ops)
    (hindex : d'.index = d.index) (hhash : d'.store.pf.hash = d.store.pf.hash)
    (hended : d'.ended = false → d.ended = false)
    (hintact : d'.ended = false → Intact w.dir d → Intact (run ops w.dir) d') :
    Moves w (w.put n ops d') n d d' ops :=
  ⟨hn, rfl, rfl, hops, hindex, hhash, hended, hintact⟩

/-- In memory only. -/
theorem moves_inMemory (hn : w.held[n]? = some d) (hindex : d'.index = d.index)
    (hhash : d'.store.pf.hash = d.store.pf.hash) (hended : d'.ended = d.ended)
    (hmet : d'.met = d.met) : Moves w (w.put n [] d') n d d' [] := by
  refine moves_put hn (onIndex_nil d.index) hindex hhash (fun h => hended.symm.trans h) ?_
  rintro - ⟨hlast, hpart⟩
  rw [Intact, hindex, hmet]
  exact ⟨hlast, hpart⟩

theorem moves_refl (hn : w.held[n]? = some d) : Moves w w n d d [] := by
  refine ⟨hn, ?_, rfl, onIndex_nil d.index, rfl, rfl, id, fun _ h => h⟩
  obtain ⟨hlt, hd⟩ := List.getElem?_eq_some_iff.mp hn
  rw [← hd, List.set_getElem_self]

theorem moves_saveMet (hn : w.held[n]? = some d) (hindex : d'.index = d.index)
    (hended : d'.ended = d.ended) {s : PartStore} (hhash : s.pf.hash = d.store.pf.hash) :
    Moves w (w.saveMet n d' s) n d (d'.saved s) (saveFileOps d'.index s) := by
  refine moves_put hn (hindex ▸ onIndex_saveFileOps d'.index s) hindex hhash
    (fun h => hended.symm.trans h) ?_
  rintro - ⟨-, hpart⟩
  have hmet : get (run (saveFileOps d'.index s) w.dir) (fileName d'.index .met) =
      some (writePartMet s.metOf) := live_saveFileOps 3 d'.index s w.dir
  have hsame : get (run (saveFileOps d'.index s) w.dir) (fileName d'.index .part) =
      get w.dir (fileName d'.index .part) := part_saveFileOps 3 d'.index s w.dir
  refine ⟨hmet, ?_⟩
  show (get (run (saveFileOps d'.index s) w.dir) (fileName d'.index .part)).isSome
  rwa [hsame, hindex]

theorem moves_closeGap (hn : w.held[n]? = some d) (start stop : Nat) (late : Bool) :
    ∃ d' ops, Moves w (w.closeGap n start stop late d) n d d' ops := by
  have hhash : (d.fillGap start stop).store.pf.hash = d.store.pf.hash := PartFile.hash_fillGap ..
  unfold HeldWorld.closeGap
  dsimp only
  split_ifs
  · exact ⟨_, _, moves_saveMet hn (by rfl) (by rfl) hhash⟩
  · exact ⟨_, _, moves_inMemory hn rfl hhash rfl rfl⟩

theorem moves_applyAichRecovery (hn : w.held[n]? = some d) (results : List (LeafSpan × Bool)) :
    ∃ d' ops, Moves w (w.applyAichRecovery n results d) n d d' ops := by
  unfold HeldWorld.applyAichRecovery
  split_ifs
  · exact ⟨_, _, moves_saveMet hn rfl rfl (hash_applyResults results d.store.pf)⟩
  · exact ⟨_, _, moves_refl hn⟩

theorem moves_ended (hn : w.held[n]? = some d) {ops : List FileOp} (hops : OnIndex d.index ops) :
    Moves w (w.put n ops { d with ended := true }) n d { d with ended := true } ops :=
  moves_put hn hops rfl rfl (fun h => absurd h (by simp)) fun h => absurd h (by simp)

theorem moves_finishTo (hn : w.held[n]? = some d) :
    ∃ d' ops, Moves w (w.finishTo n d) n d d' ops := by
  unfold HeldWorld.finishTo
  split_ifs with hrefused
  · exact ⟨_, _, moves_refl hn⟩
  · rw [Bool.not_eq_true, Bool.or_eq_false_iff, Bool.not_eq_false'] at hrefused
    rw [finishFileOps_of_part hrefused.2]
    exact ⟨_, _, moves_ended hn (onIndex_removeBackingFiles d.index)⟩

theorem moves_writeAndSync (hn : w.held[n]? = some d) (start : Nat) (data : Bytes) :
    ∃ d' ops, Moves w (w.writeAndSync n start data d) n d d' ops := by
  unfold HeldWorld.writeAndSync
  split_ifs
  · exact ⟨_, _, moves_refl hn⟩
  · refine ⟨_, _, moves_put hn (fun op hop name hname => ?_) rfl rfl id fun _ hintact => ?_⟩
    · rw [List.mem_singleton.mp hop] at hname
      exact ⟨.part, List.mem_singleton.mp hname⟩
    · refine ⟨(live_write_part w.dir d.index _).trans hintact.1, ?_⟩
      show (get (write w.dir (fileName d.index .part) _) (fileName d.index .part)).isSome
      rw [get_write, if_pos rfl]
      rfl

theorem moves_step {m : HeldMove} (ht : m.target = some n) (hstep : w.step md4 m = some w') :
    ∃ d d' ops, Moves w w' n d d' ops := by
  cases m with
  | create => cases ht
  | writeAndSync k start data =>
    cases ht
    obtain ⟨d, hn, rfl⟩ := Option.map_eq_some_iff.mp hstep
    exact ⟨d, moves_writeAndSync hn start data⟩
  | closeGap k start stop late =>
    cases ht
    obtain ⟨d, hn, rfl⟩ := Option.map_eq_some_iff.mp hstep
    exact ⟨d, moves_closeGap hn start stop late⟩
  | persist k =>
    cases ht
    obtain ⟨d, hn, rfl⟩ := Option.map_eq_some_iff.mp hstep
    exact ⟨d, _, _, moves_saveMet hn (by rfl) (by rfl) rfl⟩
  | save k ops =>
    cases ht
    obtain ⟨d, hn, rfl⟩ := Option.map_eq_some_iff.mp hstep
    exact ⟨d, _, _, moves_saveMet hn rfl rfl (hash_foldl_apply md4 ops d.store)⟩
  | applyAichRecovery k results =>
    cases ht
    obtain ⟨d, hn, rfl⟩ := Option.map_eq_some_iff.mp hstep
    exact ⟨d, moves_applyAichRecovery hn results⟩
  | finishTo k =>
    cases ht
    obtain ⟨d, hn, rfl⟩ := Option.map_eq_some_iff.mp hstep
    exact ⟨d, moves_finishTo hn⟩
  | cancel k =>
    cases ht
    obtain ⟨d, hn, rfl⟩ := Option.map_eq_some_iff.mp hstep
    exact ⟨d, _, _, moves_inMemory hn rfl rfl rfl rfl⟩
  | discardFiles k =>
    cases ht
    obtain ⟨d, hn, hstep⟩ := Option.bind_eq_some_iff.mp hstep
    split_ifs at hstep
    cases hstep
    exact ⟨d, _, _, moves_ended hn (onIndex_removeBackingFiles d.index)⟩

end

/-! ## What one step can do -/

namespace World

variable {w w' : World} {n : Nat}

theorem mem_live : n ∈ w.live ↔ n ∈ w.registry ∨ (∃ t ∈ w.tasks, t.dl = n) ∨ n ∈ w.call.holds := by
  rw [live, List.append_assoc, List.mem_append, List.mem_append, List.mem_map]

/-- What is held after the step was held before it. -/
structure NoMore (w w' : World) : Prop where
  live : ∀ n ∈ w'.live, n ∈ w.live
  registry : w'.registry.Sublist w.registry
  call : ∀ opened, w'.call = .loading opened → w.call = .loading opened

/-- At most one `Download` moves, one that is live. -/
structure Minor (w w' : World) : Prop extends NoMore w w' where
  moved : w'.downloads = w.downloads ∨
    ∃ n ∈ w.live, ∃ d d' ops, Moves w.downloads w'.downloads n d d' ops

theorem NoMore.minor (h : NoMore w w') (hsame : w'.downloads = w.downloads) : Minor w w' :=
  ⟨h, .inl hsame⟩

theorem minor_refl (w : World) : Minor w w :=
  ⟨⟨fun _ h => h, List.Sublist.refl _, fun _ h => h⟩, .inl rfl⟩

/-- The call goes on to hold less. -/
theorem noMore_call (call : Call) (hholds : ∀ n ∈ call.holds, n ∈ w.live)
    (hcall : ∀ opened, call ≠ .loading opened) (state : EngineState) (downloads : HeldWorld) :
    NoMore w { w with call, state, downloads } := by
  refine ⟨fun n hn => ?_, List.Sublist.refl _, fun opened h => absurd h (hcall opened)⟩
  rcases mem_live.mp hn with hn | hn | hn
  · exact mem_live.mpr (.inl hn)
  · exact mem_live.mpr (.inr (.inl hn))
  · exact hholds n hn

/-- The tasks go on to hold no more than is live. -/
theorem noMore_tasks {tasks : List Holder} (htasks : ∀ t ∈ tasks, t.dl ∈ w.live)
    (fetching finalizing : List Nat) (downloads : HeldWorld) :
    NoMore w { w with tasks, fetching, finalizing, downloads } := by
  refine ⟨fun n hn => ?_, List.Sublist.refl _, fun _ h => h⟩
  rcases mem_live.mp hn with hn | ⟨t, ht, rfl⟩ | hn
  · exact mem_live.mpr (.inl hn)
  · exact htasks t ht
  · exact mem_live.mpr (.inr (.inr hn))

theorem dl_mem_live {t : Holder} (ht : t ∈ w.tasks) : t.dl ∈ w.live :=
  mem_live.mpr (.inr (.inl ⟨t, ht, rfl⟩))

theorem minor_flush {pending : List Nat} {next : EngineState}
    (hcall : w.call = .flushing pending next) (h : w.flush md4 pending next = some w') :
    Minor w w' := by
  cases pending with
  | nil =>
    obtain rfl := Option.some.inj h
    exact (noMore_call .idle (fun n hn => absurd hn List.not_mem_nil) (by simp) next _).minor rfl
  | cons n pending =>
    obtain ⟨downloads, hstep, rfl⟩ := Option.map_eq_some_iff.mp h
    have hlive : ∀ k ∈ n :: pending, k ∈ w.live :=
      fun k hk => mem_live.mpr (.inr (.inr (hcall ▸ hk)))
    have hrest : ∀ k ∈ pending, k ∈ w.live := fun k hk => hlive k (List.mem_cons_of_mem n hk)
    exact ⟨noMore_call (.flushing pending next) hrest (by simp) w.state downloads,
      .inr ⟨n, hlive n List.mem_cons_self, moves_step md4 rfl hstep⟩⟩

theorem minor_spawnFetch {pending : List Nat} (hcall : w.call = .driving pending) (found : Bool) :
    Minor w (w.spawnFetch found pending) := by
  have hlive : ∀ k ∈ pending, k ∈ w.live := fun k hk => mem_live.mpr (.inr (.inr (hcall ▸ hk)))
  cases pending with
  | nil =>
    exact (noMore_call .idle (fun n hn => absurd hn List.not_mem_nil) (by simp) w.state _).minor rfl
  | cons n pending =>
    have hpending : ∀ k ∈ pending, k ∈ w.live := fun k hk => hlive k (List.mem_cons_of_mem n hk)
    have hrest : NoMore w { w with call := .driving pending } :=
      noMore_call (.driving pending) hpending (by simp) w.state w.downloads
    rw [spawnFetch]
    split_ifs
    · refine NoMore.minor ⟨fun k hk => ?_, List.Sublist.refl _, hrest.call⟩ rfl
      rcases mem_live.mp hk with hk | ⟨t, ht, rfl⟩ | hk
      · exact mem_live.mpr (.inl hk)
      · rcases List.mem_append.mp ht with ht | ht
        · exact dl_mem_live ht
        · rw [List.mem_singleton.mp ht]
          exact hlive n List.mem_cons_self
      · exact hpending k hk
    · exact hrest.minor rfl

theorem minor_cancelDownload {hash : Hash16} (h : w.cancelDownload md4 hash = some w') :
    Minor w w' := by
  rw [cancelDownload] at h
  split at h
  · obtain rfl := Option.some.inj h
    exact minor_refl w
  · next n hfind =>
    obtain ⟨downloads, hstep, rfl⟩ := Option.map_eq_some_iff.mp h
    have hn : n ∈ w.live := mem_live.mpr (.inl (List.mem_of_find?_eq_some hfind))
    refine ⟨⟨fun k hk => ?_, List.erase_sublist, by simp⟩, .inr ⟨n, hn, moves_step md4 rfl hstep⟩⟩
    rcases mem_live.mp hk with hk | hk | hk
    · exact mem_live.mpr (.inl (List.mem_of_mem_erase hk))
    · exact mem_live.mpr (.inr (.inl hk))
    · rwa [List.mem_singleton.mp hk]

theorem minor_transfer {task : Nat} {move : HeldMove} (h : w.transfer md4 task move = some w') :
    Minor w w' := by
  rw [transfer] at h
  split_ifs at h with hmay
  obtain ⟨downloads, hstep, rfl⟩ := Option.map_eq_some_iff.mp h
  obtain ⟨htransfer, htarget⟩ := hmay
  obtain ⟨t, ht, hdl⟩ : ∃ t, w.tasks[task]? = some t ∧ move.target = some t.dl := by
    cases htask : w.tasks[task]? with
    | none =>
      rw [htask] at htarget
      cases move <;> cases htransfer <;> cases htarget
    | some t =>
      rw [htask] at htarget
      exact ⟨t, rfl, htarget.symm⟩
  exact ⟨⟨fun _ hn => hn, List.Sublist.refl _, fun _ hc => hc⟩,
    .inr ⟨t.dl, dl_mem_live (List.mem_of_getElem? ht), moves_step md4 hdl hstep⟩⟩

theorem minor_beginFinalize (h : w.beginFinalize n = some w') : Minor w w' := by
  rw [beginFinalize] at h
  split_ifs at h with hmay
  obtain rfl := Option.some.inj h
  have hn : n ∈ w.live := hmay.1.elim (fun hr => mem_live.mpr (.inl hr)) fun ht => dl_mem_live ht
  refine (noMore_tasks (fun t ht => ?_) w.fetching _ _).minor rfl
  rcases List.mem_append.mp ht with ht | ht
  · exact dl_mem_live ht
  · rwa [List.mem_singleton.mp ht]

theorem minor_eraseIdx (task : Nat) (fetching finalizing : List Nat) :
    Minor w { w with fetching, finalizing, tasks := w.tasks.eraseIdx task } :=
  (noMore_tasks (fun _ ht => dl_mem_live (List.mem_of_mem_eraseIdx ht)) fetching finalizing
    _).minor rfl

theorem minor_verified {task : Nat} {ok : Bool} (h : w.verified task ok = some w') :
    Minor w w' := by
  rw [verified] at h
  split at h
  · next n htask =>
    obtain rfl := Option.some.inj h
    split_ifs
    · exact minor_eraseIdx task w.fetching _
    · exact minor_eraseIdx task w.fetching w.finalizing
    · have hn : n ∈ w.live := dl_mem_live (List.mem_of_getElem? htask)
      refine NoMore.minor ⟨fun k hk => ?_, List.filter_sublist, fun _ hc => hc⟩ rfl
      rcases mem_live.mp hk with hk | ⟨t, ht, rfl⟩ | hk
      · exact mem_live.mpr (.inl (List.mem_of_mem_filter hk))
      · rcases List.mem_or_eq_of_mem_set ht with ht | rfl
        · exact dl_mem_live ht
        · exact hn
      · exact mem_live.mpr (.inr (.inr hk))
  · cases h

theorem minor_finishTo {task : Nat} (h : w.finishTo md4 task = some w') : Minor w w' := by
  rw [finishTo] at h
  split at h
  · next n htask =>
    obtain ⟨downloads, hstep, rfl⟩ := Option.map_eq_some_iff.mp h
    have hn : n ∈ w.live := dl_mem_live (List.mem_of_getElem? htask)
    exact ⟨noMore_tasks (fun _ ht => dl_mem_live (List.mem_of_mem_eraseIdx ht)) _ _ downloads,
      .inr ⟨n, hn, moves_step md4 rfl hstep⟩⟩
  · cases h

theorem minor_endTask {task : Nat} (h : w.endTask task = some w') : Minor w w' := by
  rw [endTask] at h
  split at h
  · obtain rfl := Option.some.inj h
    exact minor_eraseIdx task _ w.finalizing
  · obtain rfl := Option.some.inj h
    exact minor_eraseIdx task w.fetching w.finalizing
  · cases h

theorem minor_flushing (w : World) (next : EngineState) :
    Minor w { w with call := .flushing w.registry next } :=
  (noMore_call (.flushing w.registry next) (fun _ hn => mem_live.mpr (.inl hn)) (by simp) w.state
    _).minor rfl

/-- A start that reads the disk, the exchange of the registry and a new download apart, a step only
    moves what is live, and lets go of some. -/
theorem step_cases {op : Op} (h : w.step md4 op = some w') :
    (∃ opened, op = .register ∧ w.call = .loading opened ∧
        w' = { w with registry := opened, call := .idle, state := .running }) ∨
      (op = .start ∧ w.call = .idle ∧ w' = w.start) ∨
      (∃ hash size name downloads, op = .addDownload hash size name ∧ w.call = .idle ∧
        w.refuses hash size = false ∧
        w.downloads.step md4 (.create hash size name) = some downloads ∧
        w' = { w with
          downloads
          registry := w.registry ++ [w.downloads.held.length]
          call := .driving [w.downloads.held.length] }) ∨
      w.Allowed op ∧ Minor w w' := by
  unfold step at h
  split at h
  · next hcall =>
    obtain rfl := Option.some.inj h
    split_ifs
    · exact .inr (.inr (.inr ⟨trivial, minor_refl w⟩))
    · exact .inr (.inl ⟨rfl, hcall, rfl⟩)
  · next opened hcall => exact .inl ⟨opened, rfl, hcall, (Option.some.inj h).symm⟩
  · next hcall =>
    obtain rfl := Option.some.inj h
    refine .inr (.inr (.inr ⟨trivial, ?_⟩))
    split_ifs
    · exact minor_flushing w .paused
    · exact minor_refl w
  · next hcall =>
    obtain rfl := Option.some.inj h
    refine .inr (.inr (.inr ⟨trivial, ?_⟩))
    split_ifs
    · exact minor_flushing w .seeding
    · exact minor_refl w
  · next hcall =>
    obtain rfl := Option.some.inj h
    refine .inr (.inr (.inr ⟨trivial, ?_⟩))
    split_ifs
    · exact ⟨⟨fun _ hn => hn, List.Sublist.refl _, fun _ hc => hc⟩, .inl rfl⟩
    · exact minor_refl w
  · next hcall =>
    obtain rfl := Option.some.inj h
    exact .inr (.inr (.inr ⟨trivial, minor_flushing w .stopped⟩))
  · next pending next' hcall =>
    exact .inr (.inr (.inr ⟨trivial, minor_flush md4 hcall h⟩))
  · next picked hcall =>
    split_ifs at h
    obtain rfl := Option.some.inj h
    refine .inr (.inr (.inr ⟨trivial,
      (noMore_call _ (fun n hn => ?_) (by simp) w.state _).minor rfl⟩))
    have hpicked := (List.mem_filter.mp hn).2
    exact mem_live.mpr (.inl (of_decide_eq_true hpicked).1)
  · next pending found hcall =>
    obtain rfl := Option.some.inj h
    exact .inr (.inr (.inr ⟨trivial, minor_spawnFetch hcall found⟩))
  · next hash size name hcall =>
    rw [addDownload] at h
    split_ifs at h with hrefuses
    · obtain rfl := Option.some.inj h
      refine .inr (.inr (.inr ⟨fun _ hnot => ?_, minor_refl w⟩))
      exact absurd (hrefuses.symm.trans hnot) (by decide)
    · obtain ⟨downloads, hstep, hnext⟩ := Option.map_eq_some_iff.mp h
      exact .inr (.inr (.inl ⟨hash, size, name, downloads, rfl, hcall,
        Bool.eq_false_of_not_eq_true hrefuses, hstep, hnext.symm⟩))
  · exact .inr (.inr (.inr ⟨trivial, minor_cancelDownload md4 h⟩))
  · next n hcall =>
    obtain ⟨downloads, hstep, rfl⟩ := Option.map_eq_some_iff.mp h
    have hn : n ∈ w.live := mem_live.mpr (.inr (.inr (hcall ▸ List.mem_singleton_self n)))
    refine .inr (.inr (.inr ⟨trivial, ?_, .inr ⟨n, hn, moves_step md4 rfl hstep⟩⟩))
    exact noMore_call .idle (fun n hn => absurd hn List.not_mem_nil) (by simp) w.state downloads
  · obtain rfl := Option.some.inj h
    refine .inr (.inr (.inr ⟨trivial, (noMore_tasks (fun t ht => ?_) w.fetching _ _).minor rfl⟩))
    rcases List.mem_append.mp ht with ht | ht
    · exact dl_mem_live ht
    · obtain ⟨n, hn, rfl⟩ := List.mem_map.mp ht
      exact mem_live.mpr (.inl hn)
  · exact .inr (.inr (.inr ⟨trivial, minor_transfer md4 h⟩))
  · exact .inr (.inr (.inr ⟨trivial, minor_beginFinalize h⟩))
  · exact .inr (.inr (.inr ⟨trivial, minor_verified h⟩))
  · exact .inr (.inr (.inr ⟨trivial, minor_finishTo md4 h⟩))
  · exact .inr (.inr (.inr ⟨trivial, minor_endTask h⟩))
  · cases h

/-! ## What every step keeps -/

/-- What is live has a number, and what a start has opened is not live yet. -/
structure Tracked (w : World) : Prop where
  known : ∀ n ∈ w.live, n < w.downloads.held.length
  fresh : ∀ opened, w.call = .loading opened →
    ∀ n ∈ opened, n < w.downloads.held.length ∧ n ∉ w.live

theorem Minor.length_eq (h : Minor w w') :
    w'.downloads.held.length = w.downloads.held.length := by
  rcases h.moved with hsame | ⟨n, -, d, d', ops, hmoves⟩
  · rw [hsame]
  · rw [hmoves.held, List.length_set]

theorem Tracked.minor (h : w.Tracked) (hminor : Minor w w') : w'.Tracked where
  known n hn := by
    rw [hminor.length_eq]
    exact h.known n (hminor.live n hn)
  fresh opened hopened n hn := by
    obtain ⟨hlt, hnot⟩ := h.fresh opened (hminor.call opened hopened) n hn
    rw [hminor.length_eq]
    exact ⟨hlt, fun hlive => hnot (hminor.live n hlive)⟩

/-- What `start` loads is not held yet. -/
theorem live_start (hn : n ∈ w.start.live) : n ∈ w.live := by
  rcases mem_live.mp hn with hn | hn | hn
  · exact mem_live.mpr (.inl hn)
  · exact mem_live.mpr (.inr (.inl hn))
  · cases hn

theorem Tracked.start (h : w.Tracked) : w.start.Tracked := by
  have hlive : ∀ n ∈ w.start.live, n ∈ w.live := fun n => live_start
  have hlength : w.start.downloads.held.length =
      w.downloads.held.length + (resumeDownloads w.downloads.dir).length := by
    simp [World.start]
  refine ⟨fun n hn => ?_, fun opened hopened n hn => ?_⟩
  · have hlt := h.known n (hlive n hn)
    omega
  · cases hopened
    have hrange := List.mem_range'_1.mp hn
    refine ⟨by omega, fun hn => ?_⟩
    have hlt := h.known n (hlive n hn)
    omega

theorem mem_live_registered {opened : List Nat} {state : EngineState} :
    n ∈ ({ w with registry := opened, call := .idle, state } : World).live ↔
      n ∈ opened ∨ ∃ t ∈ w.tasks, t.dl = n := by
  rw [mem_live]
  simp [Call.holds]

theorem Tracked.register (h : w.Tracked) {opened : List Nat} (hcall : w.call = .loading opened) :
    ({ w with registry := opened, call := .idle, state := .running } : World).Tracked := by
  refine ⟨fun n hn => ?_, fun _ hopened => by cases hopened⟩
  rcases mem_live_registered.mp hn with hn | ⟨t, ht, rfl⟩
  · exact (h.fresh opened hcall n hn).1
  · exact h.known t.dl (dl_mem_live ht)

/-- A new download at the next index, behind those there were. -/
theorem created {downloads : HeldWorld} {hash : Hash16} {size : UInt64} {name : Bytes}
    (hstep : w.downloads.step md4 (.create hash size name) = some downloads) :
    ∃ s : PartStore, s.pf.hash = hash ∧
      downloads.dir = run (createFileOps (nextPartIndex w.downloads.dir) s) w.downloads.dir ∧
      downloads.held = w.downloads.held ++
        [⟨nextPartIndex w.downloads.dir, s, writePartMet s.metOf, 0, false, false⟩] := by
  obtain ⟨i, hi⟩ : ∃ i, i = nextPartIndex w.downloads.dir := ⟨_, rfl⟩
  obtain ⟨s, hs⟩ : ∃ s, s = PartStore.create hash size name := ⟨_, rfl⟩
  have hnext : downloads = ⟨run (createFileOps i s) w.downloads.dir,
      w.downloads.held ++ [⟨i, s, writePartMet s.metOf, 0, false, false⟩]⟩ := by
    rw [hi, hs]
    exact (Option.some.inj hstep).symm
  rw [hnext, ← hi]
  exact ⟨s, congrArg (fun s : PartStore => s.pf.hash) hs, rfl, rfl⟩

theorem mem_live_added {downloads : HeldWorld} (hcall : w.call = .idle) {k : Nat} :
    n ∈ ({ w with downloads, registry := w.registry ++ [k], call := .driving [k] } : World).live ↔
      n ∈ w.live ∨ n = k := by
  rw [mem_live, mem_live, hcall]
  simp only [Call.holds, List.mem_append, List.mem_singleton, List.not_mem_nil, or_false]
  grind

theorem Tracked.step (h : w.Tracked) {op : Op} (hstep : w.step md4 op = some w') : w'.Tracked := by
  rcases step_cases md4 hstep with ⟨opened, -, hcall, rfl⟩ | ⟨-, -, rfl⟩ |
    ⟨hash, size, name, downloads, -, hcall, -, hcreate, rfl⟩ | ⟨-, hminor⟩
  · exact h.register hcall
  · exact h.start
  · obtain ⟨s, -, -, hheld⟩ := created md4 hcreate
    refine ⟨fun n hn => ?_, fun _ hopened => by cases hopened⟩
    show n < downloads.held.length
    rw [hheld, List.length_append, List.length_singleton]
    rcases (mem_live_added hcall).mp hn with hn | rfl
    · exact Nat.lt_succ_of_lt (h.known n hn)
    · exact Nat.lt_succ_self _
  · exact h.minor hminor

/-! ## Where it stays good -/

/-- A move changes no index and no hash. -/
theorem index_of_moves {d d' : HeldDownload} {ops : List FileOp}
    (h : Moves w.downloads w'.downloads n d d' ops) (k : Nat) :
    w'.index k = w.index k ∧ w'.hash k = w.hash k := by
  rw [index, index, World.hash, World.hash, h.held]
  by_cases hk : k = n
  · subst hk
    rw [Slots.getElem?_set_self h.was, h.was]
    exact ⟨congrArg some h.index, congrArg some h.hash⟩
  · rw [Slots.getElem?_set_ne hk]
    exact ⟨rfl, rfl⟩

theorem index_of_get {d : HeldDownload} (h : w.downloads.held[n]? = some d) :
    w.index n = some d.index := by
  rw [index, h]
  rfl

theorem Minor.index_eq (h : Minor w w') (k : Nat) :
    w'.index k = w.index k ∧ w'.hash k = w.hash k := by
  rcases h.moved with hsame | ⟨n, -, d, d', ops, hmoves⟩
  · rw [index, index, World.hash, World.hash, hsame]
    exact ⟨rfl, rfl⟩
  · exact index_of_moves hmoves k

/-- Another live download has its files at another index. -/
theorem Good.keeps_minor (h : w.Good) (hminor : Minor w w') {k : Nat} (hk : k ∈ w.live) :
    w'.Keeps k := by
  rcases hminor.moved with hsame | ⟨n, hn, d, d', ops, hmoves⟩
  · rw [Keeps, hsame]
    exact h.keeps k hk
  · intro e he hlive
    rw [hmoves.held] at he
    rw [hmoves.dir]
    rcases Slots.getElem?_set_cases he with ⟨rfl, rfl⟩ | ⟨hne, he⟩
    · exact hmoves.intact hlive (h.keeps k hk d hmoves.was (hmoves.ended hlive))
    · have hindex : e.index ≠ d.index := by
        intro heq
        refine hne (h.apart k hk n hn ?_)
        rw [index_of_get he, index_of_get hmoves.was, heq]
      rw [Intact, hmoves.onIndex.get_run hindex, hmoves.onIndex.get_run hindex]
      exact h.keeps k hk e he hlive

theorem Good.minor (h : w.Good) (hminor : Minor w w') : w'.Good where
  apart n hn m hm heq := by
    rw [(hminor.index_eq n).1, (hminor.index_eq m).1] at heq
    exact h.apart n (hminor.live n hn) m (hminor.live m hm) heq
  hashes := by
    have hsame : w'.registry.map w'.hash = w'.registry.map w.hash :=
      List.map_congr_left fun k _ => (hminor.index_eq k).2
    rw [hsame]
    exact h.hashes.sublist (hminor.registry.map w.hash)
  keeps n hn := h.keeps_minor hminor (hminor.live n hn)

theorem start_get {k : Nat} (hk : k < w.downloads.held.length) :
    w.start.downloads.held[k]? = w.downloads.held[k]? := List.getElem?_append_left hk

theorem Good.start (h : w.Good) (ht : w.Tracked) : w.start.Good := by
  have hlive : ∀ n ∈ w.start.live, n ∈ w.live := fun n => live_start
  have hindex {n : Nat} (hn : n ∈ w.live) : w.start.index n = w.index n := by
    rw [index, start_get (ht.known n hn), index]
  refine ⟨fun n hn m hm heq => ?_, ?_, fun n hn => ?_⟩
  · rw [hindex (hlive n hn), hindex (hlive m hm)] at heq
    exact h.apart n (hlive n hn) m (hlive m hm) heq
  · have hsame : w.registry.map w.start.hash = w.registry.map w.hash := by
      refine List.map_congr_left fun k hk => ?_
      rw [World.hash, start_get (ht.known k (mem_live.mpr (.inl hk))), World.hash]
    show (w.registry.map w.start.hash).Nodup
    rw [hsame]
    exact h.hashes
  · rw [Keeps, start_get (ht.known n (hlive n hn))]
    exact h.keeps n (hlive n hn)

/-- The new registry is good exactly if what was opened is unclaimed. -/
theorem good_register_iff (h : w.Good) (ht : w.Tracked) {opened : List Nat}
    (hcall : w.call = .loading opened) :
    ({ w with registry := opened, call := .idle, state := .running } : World).Good ↔
      w.Unclaimed opened := by
  constructor
  · intro hgood
    have hinj : ∀ n ∈ opened, ∀ m ∈ opened, w.index n = w.index m → n = m :=
      fun n hn m hm => hgood.apart n (mem_live_registered.mpr (.inl hn)) m
        (mem_live_registered.mpr (.inl hm))
    refine ⟨(List.Nodup.of_map w.hash hgood.hashes).map_on hinj, hgood.hashes,
      fun n hn => hgood.keeps n (mem_live_registered.mpr (.inl hn)), fun t hold n hn heq => ?_⟩
    have hsame := hgood.apart t.dl (mem_live_registered.mpr (.inr ⟨t, hold, rfl⟩)) n
      (mem_live_registered.mpr (.inl hn)) heq
    exact (ht.fresh opened hcall n hn).2 (hsame ▸ dl_mem_live hold)
  · rintro ⟨hindices, hhashes, hkeeps, hheld⟩
    refine ⟨fun n hn m hm heq => ?_, hhashes, fun n hn => ?_⟩
    · rcases mem_live_registered.mp hn with hn | ⟨t, hold, rfl⟩
      · rcases mem_live_registered.mp hm with hm | ⟨t', hold', rfl⟩
        · exact List.inj_on_of_nodup_map hindices hn hm heq
        · exact absurd heq.symm (hheld t' hold' n hn)
      · rcases mem_live_registered.mp hm with hm | ⟨t', hold', rfl⟩
        · exact absurd heq (hheld t hold m hm)
        · exact h.apart t.dl (dl_mem_live hold) t'.dl (dl_mem_live hold') heq
    · rcases mem_live_registered.mp hn with hn | ⟨t, hold, rfl⟩
      · exact hkeeps n hn
      · exact h.keeps t.dl (dl_mem_live hold)

/-- The files of a new download are its own. -/
theorem intact_created (dir : ConfigDir) (i : Nat) (s : PartStore) :
    Intact (run (createFileOps i s) dir) ⟨i, s, writePartMet s.metOf, 0, false, false⟩ := by
  have hall : (createFileOps i s).take 5 = createFileOps i s := rfl
  have hpart := part_createFileOps (by decide : 2 ≤ 5) dir i s
  rw [hall] at hpart
  refine ⟨?_, hpart⟩
  have hsaved := live_saveFileOps 3 i s (write (write dir (fileName i .part) [])
    (fileName i .part) (List.replicate s.pf.size 0))
  rwa [if_neg (by decide), if_neg (by decide)] at hsaved

/-- A new download leaves it good exactly if no live one has the next index. -/
theorem good_added_iff (h : w.Good) (ht : w.Tracked) (hcall : w.call = .idle)
    {hash : Hash16} {size : UInt64} {name : Bytes} {downloads : HeldWorld}
    (hnew : w.refuses hash size = false)
    (hcreate : w.downloads.step md4 (.create hash size name) = some downloads) :
    ({ w with
        downloads
        registry := w.registry ++ [w.downloads.held.length]
        call := .driving [w.downloads.held.length] } : World).Good ↔
      ∀ n ∈ w.live, w.index n ≠ some (nextPartIndex w.downloads.dir) := by
  obtain ⟨s, hhash, hdir, hheld⟩ := created md4 hcreate
  set k := w.downloads.held.length with hk
  set w' : World :=
    { w with downloads, registry := w.registry ++ [k], call := .driving [k] } with hw'
  have hold {n : Nat} (hn : n ∈ w.live) : w'.downloads.held[n]? = w.downloads.held[n]? := by
    show downloads.held[n]? = _
    rw [hheld]
    exact List.getElem?_append_left (ht.known n hn)
  have hlast : w'.downloads.held[k]? =
      some ⟨nextPartIndex w.downloads.dir, s, writePartMet s.metOf, 0, false, false⟩ := by
    show downloads.held[k]? = _
    rw [hheld]
    exact Slots.getElem?_concat_new
  have hindex {n : Nat} (hn : n ∈ w.live) : w'.index n = w.index n := by
    rw [index, hold hn, index]
  have hnewIndex : w'.index k = some (nextPartIndex w.downloads.dir) := index_of_get hlast
  have hne {n : Nat} (hn : n ∈ w.live) : n ≠ k := (ht.known n hn).ne
  constructor
  · intro hgood n hn heq
    have hsame := hgood.apart n ((mem_live_added hcall).mpr (.inl hn)) k
      ((mem_live_added hcall).mpr (.inr rfl)) (by rw [hindex hn, heq, hnewIndex])
    exact hne hn hsame
  · intro hfree
    refine ⟨fun n hn m hm heq => ?_, ?_, fun n hn => ?_⟩
    · rcases (mem_live_added hcall).mp hn with hn | rfl
      · rcases (mem_live_added hcall).mp hm with hm | rfl
        · rw [hindex hn, hindex hm] at heq
          exact h.apart n hn m hm heq
        · rw [hindex hn, hnewIndex] at heq
          exact absurd heq (hfree n hn)
      · rcases (mem_live_added hcall).mp hm with hm | rfl
        · rw [hindex hm, hnewIndex] at heq
          exact absurd heq.symm (hfree m hm)
        · rfl
    · have hsame : w.registry.map w'.hash = w.registry.map w.hash := by
        refine List.map_congr_left fun n hn => ?_
        rw [World.hash, hold (mem_live.mpr (.inl hn)), World.hash]
      have hlastHash : w'.hash k = some hash := by
        rw [World.hash, hlast]
        exact congrArg some hhash
      have hnot : some hash ∉ w.registry.map w.hash := by
        intro hmem
        obtain ⟨n, hn, heq⟩ := List.mem_map.mp hmem
        have hany := (Bool.or_eq_false_iff.mp hnew).2
        exact absurd (decide_eq_true heq) (by simpa using List.any_eq_false.mp hany n hn)
      show ((w.registry ++ [k]).map w'.hash).Nodup
      rw [List.map_append, hsame, List.map_singleton, hlastHash]
      refine List.nodup_append.mpr ⟨h.hashes, List.nodup_singleton _, fun a ha b hb hab => ?_⟩
      rw [List.mem_singleton.mp hb] at hab
      exact hnot (hab ▸ ha)
    · intro e he hlive
      show Intact downloads.dir e
      rw [hdir]
      rcases (mem_live_added hcall).mp hn with hn | rfl
      · rw [hold hn] at he
        have hother : e.index ≠ nextPartIndex w.downloads.dir :=
          fun heq => hfree n hn (heq ▸ index_of_get he)
        have hops := onIndex_createFileOps (nextPartIndex w.downloads.dir) s
        rw [Intact, hops.get_run hother, hops.get_run hother]
        exact h.keeps n hn e he hlive
      · obtain rfl := Option.some.inj (hlast.symm.trans he)
        exact intact_created w.downloads.dir _ s

/-- A step from a good world leads to a good one exactly if it is allowed. -/
theorem good_step_iff (h : w.Good) (ht : w.Tracked) {op : Op} (hstep : w.step md4 op = some w') :
    w'.Good ↔ w.Allowed op := by
  rcases step_cases md4 hstep with ⟨opened, rfl, hcall, rfl⟩ | ⟨rfl, -, rfl⟩ |
    ⟨hash, size, name, downloads, rfl, hcall, hnew, hcreate, rfl⟩ | ⟨hallowed, hminor⟩
  · refine (good_register_iff h ht hcall).trans ⟨fun hok opened' hcall' => ?_, fun hok => ?_⟩
    · obtain rfl := Call.loading.inj (hcall.symm.trans hcall')
      exact hok
    · exact hok opened hcall
  · exact iff_of_true (h.start ht) trivial
  · refine (good_added_iff md4 h ht hcall hnew hcreate).trans ⟨fun hok _ _ => hok, fun hok => ?_⟩
    exact hok hcall hnew
  · exact iff_of_true (h.minor hminor) hallowed

theorem allowed_of_none {op : Op} (hstep : w.step md4 op = none) : w.Allowed op := by
  cases op with
  | register =>
    intro opened hcall
    unfold step at hstep
    simp only [hcall, reduceCtorEq] at hstep
  | addDownload hash size name =>
    intro hcall hnew
    unfold step at hstep
    simp only [hcall, addDownload, hnew, Bool.false_eq_true, if_false, Option.map_eq_none_iff]
      at hstep
    cases hstep
  | _ => trivial

theorem good_new (dir : ConfigDir) : (new dir).Good :=
  ⟨fun _ hn => absurd hn List.not_mem_nil, List.nodup_nil, fun _ hn => absurd hn List.not_mem_nil⟩

theorem tracked_new (dir : ConfigDir) : (new dir).Tracked :=
  ⟨fun _ hn => absurd hn List.not_mem_nil, fun _ hcall => by cases hcall⟩

end World

/-- From any config dir, whatever the calls and tasks do: there is at most one live `Download` for
    each part file, no hash is registered twice and no progress is overwritten, exactly if nobody
    holds a part file that a start opens or a new download gets. -/
theorem one_live_download (dir : ConfigDir) (ops : List Op) :
    Runs.Always (World.step md4) World.Good (World.new dir) ops ↔
      Runs.Throughout (World.step md4) World.Allowed (World.new dir) ops :=
  Runs.always_iff_throughout (fun _ _ _ ht hstep => ht.step md4 hstep)
    (fun _ _ => World.allowed_of_none md4) (fun _ _ _ ht h => World.good_step_iff md4 h ht)
    (World.tracked_new dir) (World.good_new dir) ops

/-- A stop and a start while a download is fetched. -/
def restartWhileFetching : List Op :=
  [.start, .register, .addDownload (.fill 16 1) 1 [97], .spawnFetch true, .spawnFetch true,
    .shutdown, .flush, .flush, .start, .register]

/-- The fetch goes on with the first `Download`, at the index of the second. -/
theorem restart_doubles : ¬∀ dir ops,
    Runs.Always (World.step fun _ => .fill 16 0) World.Good (World.new dir) ops := by
  intro h
  have hend : (Runs.run (World.step fun _ => .fill 16 0) (World.new []) restartWhileFetching).map
      (fun w => (w.live, w.index 0, w.index 1)) = some ([1, 0], some 1, some 1) := by
    decide +kernel
  obtain ⟨w, hrun, hw⟩ := Option.map_eq_some_iff.mp hend
  obtain ⟨hlive, hindices⟩ := Prod.mk.inj hw
  obtain ⟨hfirst, hsecond⟩ := Prod.mk.inj hindices
  have hgood := (h [] restartWhileFetching).run hrun
  have hsame := hgood.apart 0 (by simp [hlive]) 1 (by simp [hlive]) (hfirst.trans hsecond.symm)
  exact absurd hsame (by decide)

end PadMule.Engine.LiveDownloads
