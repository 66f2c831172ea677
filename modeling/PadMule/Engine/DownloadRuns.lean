import PadMule.Engine.ConfigDir

/-
  Runs of the program over one config dir: downloads are created, changed, saved,
  finished and cancelled, the process dies after any file operation and starts again.

  `World` is the directory, the stores in memory and a history the claims are about.
  The directory of each index is in one of three phases (`Phase`): nothing to resume, a
  met left behind by a finished or cancelled download, or an active download whose live
  met is its last save. `World.ok_step` keeps every index in its phase.

  One crash point is out: between the two renames of a save there is no live
  `.part.met`, and both readers of the directory go by its name. A death there loses the
  download and frees its index (`crash_between_renames_loses`).
-/

namespace PadMule.Engine

open Files PadMule.Proto FileMap

/-- One download ever created at an index; `saves` has the newest first. -/
structure DownloadRecord where
  hash : Hash16
  saves : List PartStore
  ended : Bool

/-- Saved at least once, neither finished nor cancelled. -/
def DownloadRecord.Active (r : DownloadRecord) : Prop := r.saves ≠ [] ∧ r.ended = false

structure World where
  dir : ConfigDir
  stores : Nat → Option PartStore
  history : Nat → List DownloadRecord

def World.empty : World := ⟨[], fun _ => none, fun _ => []⟩

inductive Action where
  | create (hash : Hash16) (size : UInt64) (name : Bytes)
  | update (i : Nat) (op : StoreOp)
  | save (i : Nat)
  | finish (i : Nat)
  | remove (i : Nat)

namespace Action

/-- The index whose files the action works on. -/
def index (w : World) : Action → Nat
  | create .. => nextPartIndex w.dir
  | update i _ | save i | finish i | remove i => i

/-- The data file behind the handle of index `i`. -/
def partFile (w : World) (i : Nat) : Bytes := (get w.dir (fileName i .part)).getD []

/-- Only a block write touches the disk between saves. -/
def updateFileOps (w : World) (i : Nat) : StoreOp → List FileOp
  | .writeBlock start data =>
    ((w.stores i).map fun s =>
      [Op.write (fileName i .part) (s.writeBlock (partFile w i) start data).2]).getD []
  | _ => []

def fileOps (w : World) : Action → List FileOp
  | create hash size name => createFileOps (nextPartIndex w.dir) (PartStore.create hash size name)
  | update i op => updateFileOps w i op
  | save i => ((w.stores i).map (saveFileOps i)).getD []
  | finish i => finishFileOps w.dir i
  | remove i => removeBackingFiles i

/-- The stores in memory once the action has returned. -/
def memory (md4 : Bytes → Hash16) (w : World) : Action → Nat → Option PartStore
  | create hash size name =>
    Function.update w.stores (nextPartIndex w.dir) (some (PartStore.create hash size name))
  | update i op =>
    Function.update w.stores i ((w.stores i).map fun s => (op.apply md4 s (partFile w i)).1)
  | save _ => w.stores
  | finish i | remove i => Function.update w.stores i none

/-- What the first `n` of the action's file operations mean for the downloads: a
    creation begins with the first, a save counts from its install on, and an ending
    download has ended once its data file is gone. -/
def record (w : World) (n : Nat) : Action → Nat → List DownloadRecord
  | create hash size name =>
    let r : DownloadRecord :=
      ⟨hash, if 5 ≤ n then [PartStore.create hash size name] else [], false⟩
    let i := nextPartIndex w.dir
    if n = 0 then w.history else Function.update w.history i (r :: w.history i)
  | update _ _ => w.history
  | save i =>
    if n < 3 then w.history
    else Function.update w.history i
      ((w.history i).modifyHead fun r => { r with saves := (w.stores i).toList ++ r.saves })
  | finish i | remove i =>
    if n = 0 then w.history
    else Function.update w.history i ((w.history i).modifyHead fun r => { r with ended := true })

/-- The program acts on stores it holds; what it does to one is a valid operation. -/
def Valid (w : World) : Action → Prop
  | create .. => True
  | update i op => ∃ s, w.stores i = some s ∧ op.Valid s.pf.size
  | save i | finish i | remove i => ∃ s, w.stores i = some s

end Action

namespace World

/-- The world after the first `k` file operations of an action. -/
def after (w : World) (a : Action) (k : Nat) : World :=
  { w with
    dir := run ((a.fileOps w).take k) w.dir
    history := a.record w (min k (a.fileOps w).length) }

def complete (md4 : Bytes → Hash16) (w : World) (a : Action) : World :=
  { w.after a (a.fileOps w).length with stores := a.memory md4 w }

/-- A new process: memory is what `resume_downloads` returns. -/
def restart (w : World) : World := { w with stores := fun i => (resumeDownloads w.dir).lookup i }

end World

inductive Event where
  | done (a : Action)
  | died (a : Action) (k : Nat)

def Event.action : Event → Action
  | done a | died a _ => a

def World.step (md4 : Bytes → Hash16) (w : World) : Event → World
  | .done a => w.complete md4 a
  | .died a k => (w.after a k).restart

/-- Worlds reached from an empty directory. -/
inductive Run (md4 : Bytes → Hash16) : World → Prop where
  | start : Run md4 World.empty
  | step {w : World} (e : Event) : Run md4 w → e.action.Valid w → Run md4 (w.step md4 e)

/-- What a step needs: room for another index, a met no length field cuts, and no death
    between the two renames of a save while there is a live met to rename. -/
def Action.Safe (w : World) : Action → Prop
  | create _ _ name => HasRoom w.dir ∧ name.length ≤ 65535
  | save i => ∀ s, w.stores i = some s → s.WithinLimits
  | _ => True

def Event.Safe (w : World) : Event → Prop
  | done a => a.Safe w
  | died a k => a.Safe w ∧ ∀ i, a = .save i → k = 2 → (metDir w.dir i).live = none

inductive SafeRun (md4 : Bytes → Hash16) : World → Prop where
  | start : SafeRun md4 World.empty
  | step {w : World} (e : Event) :
    SafeRun md4 w → e.action.Valid w → e.Safe w → SafeRun md4 (w.step md4 e)

/-! ## What must hold -/

/-- Every active download is resumed, in the state of one of its last two saves. -/
def World.NoneLost (w : World) : Prop :=
  ∀ i, ∀ r ∈ w.history i, r.Active → ∃ s ∈ r.saves.take 2, (i, s) ∈ resumeDownloads w.dir

/-- A resumed state is one of the newest download at its index. -/
def World.NoneStale (w : World) : Prop :=
  ∀ i s, (i, s) ∈ resumeDownloads w.dir →
    ((w.history i).head?.map DownloadRecord.hash) = some s.pf.hash

/-- The next index is never that of an active download. -/
def World.NoneClobbered (w : World) : Prop :=
  ∀ i, ∀ r ∈ w.history i, r.Active → nextPartIndex w.dir ≠ i

/-! ## The phases of an index -/

/-- What is on disk for one index: its live met, its data file, its history. The last
    argument is the state an active download resumes in. -/
inductive Phase (live part : Option Bytes) (hist : List DownloadRecord) :
    Option PartStore → Prop where
  | idle : live = none → (∀ r ∈ hist, ¬ r.Active) → Phase live part hist none
  | leftover (s : PartStore) (r : DownloadRecord) (t : List DownloadRecord) :
    live = some (writePartMet s.metOf) → s.Fits → part = none → hist = r :: t →
      r.hash = s.pf.hash → (∀ r ∈ hist, ¬ r.Active) → Phase live part hist none
  | active (s : PartStore) (r : DownloadRecord) (t : List DownloadRecord) :
    live = some (writePartMet s.metOf) → s.Fits → part.isSome → hist = r :: t →
      r.hash = s.pf.hash → r.saves.head? = some s → r.ended = false → (∀ r ∈ t, ¬ r.Active) →
      Phase live part hist (some s)

/-- The phase of index `i` in a world. -/
def World.PhaseAt (w : World) (i : Nat) (c : Option PartStore) : Prop :=
  Phase (metDir w.dir i).live (get w.dir (fileName i .part)) (w.history i) c

/-- The directory part of the invariant, which a restart needs. -/
structure World.DirOk (w : World) : Prop where
  canonical : Canonical w.dir
  phase : ∀ i, ∃ c, w.PhaseAt i c

/-- A store in memory belongs to the active download of its index. -/
structure World.Ok (w : World) : Prop where
  canonical : Canonical w.dir
  phase : ∀ i, ∃ c, w.PhaseAt i c ∧
    ∀ u, w.stores i = some u → u.Ok ∧ ∃ s, c = some s ∧ u.pf.hash = s.pf.hash

theorem World.Ok.dirOk {w : World} (h : w.Ok) : w.DirOk where
  canonical := h.canonical
  phase := by
    intro i
    obtain ⟨c, hc, -⟩ := h.phase i
    exact ⟨c, hc⟩

theorem openPart_active {d : ConfigDir} {i : Nat} {s : PartStore} (hf : s.Fits)
    (hlive : (metDir d i).live = some (writePartMet s.metOf))
    (hpart : (get d (fileName i .part)).isSome) : openPart d i = .ok s := by
  obtain ⟨file, hfile⟩ := Option.isSome_iff_exists.mp hpart
  rw [openPart, hfile, openStore, selectMet_of_live hlive hf.readPartMet]
  show (ofPartMet s.metOf >>= fun s => pure s) = _
  rw [ofPartMet_metOf hf.ok]
  rfl

theorem openPart_no_part {d : ConfigDir} {i : Nat} (h : get d (fileName i .part) = none)
    (s : PartStore) : openPart d i ≠ .ok s := by
  rw [openPart, h, openStore]
  intro heq
  cases hsel : selectMet (metDir d i) with
  | error e => rw [hsel] at heq; cases heq
  | ok met =>
    rw [hsel] at heq
    cases hof : ofPartMet met with
    | error e => change (ofPartMet met >>= _) = _ at heq; rw [hof] at heq; cases heq
    | ok t => change (ofPartMet met >>= _) = _ at heq; rw [hof] at heq; cases heq

/-- What a phase says about resuming its index. -/
theorem World.DirOk.mem_resumeDownloads_iff {w : World} (h : w.DirOk) {i : Nat}
    {c : Option PartStore} (hc : w.PhaseAt i c) {s : PartStore} :
    (i, s) ∈ resumeDownloads w.dir ↔ c = some s := by
  rw [mem_resumeDownloads, mem_metIndices h.canonical]
  cases hc with
  | idle hlive _ => exact ⟨fun hs => absurd hlive hs.1, fun hs => by cases hs⟩
  | leftover s' r t _ _ hpart =>
    exact ⟨fun hs => absurd hs.2 (openPart_no_part hpart s), fun hs => by cases hs⟩
  | active s' r t hlive hf hpart =>
    rw [openPart_active hf hlive hpart]
    constructor
    · intro hs
      rw [Except.ok.inj hs.2]
    · intro hs
      rw [hlive, Option.some.inj hs]
      exact ⟨Option.some_ne_none _, rfl⟩

/-- Whatever was in memory, a restart re-establishes the invariant. -/
theorem World.DirOk.restart {w : World} (h : w.DirOk) : w.restart.Ok where
  canonical := h.canonical
  phase := by
    intro i
    obtain ⟨c, hc⟩ := h.phase i
    refine ⟨c, hc, fun u hu => ?_⟩
    have hmem : (i, u) ∈ resumeDownloads w.dir := by
      obtain ⟨l₁, l₂, hl, -⟩ := List.lookup_eq_some_iff.mp hu
      rw [hl]
      exact List.mem_append_right _ (List.mem_cons_self ..)
    have hcu := (h.mem_resumeDownloads_iff hc).mp hmem
    subst hcu
    cases hc with
    | active s r t _ hf => exact ⟨hf.ok, u, rfl, rfl⟩

/-- The three claims hold wherever the invariant does. -/
theorem World.DirOk.holds {w : World} (h : w.DirOk) :
    w.NoneLost ∧ w.NoneStale ∧ w.NoneClobbered := by
  have hactive : ∀ i, ∀ r ∈ w.history i, r.Active →
      ∃ s, r.saves.head? = some s ∧ (i, s) ∈ resumeDownloads w.dir := by
    intro i r hr hact
    obtain ⟨c, hc⟩ := h.phase i
    have hresume := fun s => h.mem_resumeDownloads_iff hc (s := s)
    cases hc with
    | idle _ hno => exact absurd hact (hno r hr)
    | leftover _ _ _ _ _ _ _ _ hno => exact absurd hact (hno r hr)
    | active s r' t _ _ _ hhist _ hsaves _ hno =>
      rw [hhist] at hr
      rcases List.mem_cons.mp hr with rfl | hr
      · exact ⟨s, hsaves, (hresume s).mpr rfl⟩
      · exact absurd hact (hno r hr)
  refine ⟨fun i r hr hact => ?_, fun i s hs => ?_, fun i r hr hact hnext => ?_⟩
  · obtain ⟨s, hhead, hs⟩ := hactive i r hr hact
    refine ⟨s, ?_, hs⟩
    cases hsaves : r.saves with
    | nil => rw [hsaves] at hhead; cases hhead
    | cons s' ss => rw [hsaves] at hhead; cases hhead; exact List.mem_cons_self ..
  · obtain ⟨c, hc⟩ := h.phase i
    have hcs := (h.mem_resumeDownloads_iff hc).mp hs
    subst hcs
    cases hc with
    | active _ r t _ _ _ hhist hhash =>
      rw [hhist, List.head?_cons, Option.map_some, hhash]
  · obtain ⟨s, -, hs⟩ := hactive i r hr hact
    exact nextPartIndex_ne h.canonical (mem_resumeDownloads.mp hs).1 hnext

/-! ## One action, one index -/

theorem updateFileOps_cases (w : World) (i : Nat) (op : StoreOp) :
    Action.updateFileOps w i op = [] ∨
      ∃ file, Action.updateFileOps w i op = [.write (fileName i .part) file] := by
  cases op with
  | writeBlock start data =>
    unfold Action.updateFileOps
    cases w.stores i with
    | none => exact Or.inl rfl
    | some s => exact Or.inr ⟨_, rfl⟩
  | _ => exact Or.inl rfl

theorem onIndex_fileOps (w : World) (a : Action) : OnIndex (a.index w) (a.fileOps w) := by
  cases a with
  | create hash size name => exact onIndex_createFileOps _ _
  | update i op =>
    show OnIndex i (Action.updateFileOps w i op)
    rcases updateFileOps_cases w i op with hops | ⟨file, hops⟩ <;> rw [hops]
    · exact onIndex_nil i
    · intro o ho n hn
      rw [List.mem_singleton.mp ho] at hn
      exact ⟨.part, List.mem_singleton.mp hn⟩
  | save i =>
    show OnIndex i (((w.stores i).map (saveFileOps i)).getD [])
    cases w.stores i with
    | none => exact onIndex_nil i
    | some s => exact onIndex_saveFileOps i s
  | finish i =>
    show OnIndex i (finishFileOps w.dir i)
    unfold finishFileOps
    split
    · exact onIndex_removeBackingFiles i
    · exact onIndex_nil i
  | remove i => exact onIndex_removeBackingFiles i

theorem record_of_ne (w : World) (n : Nat) (a : Action) {j : Nat} (h : j ≠ a.index w) :
    a.record w n j = w.history j := by
  cases a with
  | create hash size name =>
    simp only [Action.record]
    split
    · rfl
    · exact Function.update_of_ne h _ _
  | update i op => rfl
  | save i | finish i | remove i =>
    simp only [Action.record]
    split
    · rfl
    · exact Function.update_of_ne h _ _

theorem memory_of_ne (md4 : Bytes → Hash16) (w : World) (a : Action) {j : Nat}
    (h : j ≠ a.index w) : a.memory md4 w j = w.stores j := by
  cases a with
  | save i => rfl
  | create | update | finish | remove => exact Function.update_of_ne h _ _

/-- The frame rule: other indices keep their phase. -/
theorem phaseAt_after_of_ne {w : World} {a : Action} {j : Nat} (hj : j ≠ a.index w) (k : Nat)
    {c : Option PartStore} (h : w.PhaseAt j c) : (w.after a k).PhaseAt j c := by
  have hon := (onIndex_fileOps w a).take k
  unfold World.PhaseAt World.after
  dsimp only
  rw [hon.metDir_run hj, hon.get_run hj, record_of_ne w _ a hj]
  exact h

/-! ## The phases each action goes through -/

theorem live_nextPartIndex {w : World} (h : w.DirOk) :
    (metDir w.dir (nextPartIndex w.dir)).live = none := by
  by_contra hlive
  exact nextPartIndex_ne h.canonical ((mem_metIndices h.canonical).mpr hlive) rfl

theorem phaseAt_create {w : World} (h : w.DirOk) {hash : Hash16} {size : UInt64} {name : Bytes}
    (hname : name.length ≤ 65535) (k : Nat) :
    (w.after (.create hash size name) k).PhaseAt (nextPartIndex w.dir)
      (if k < 5 then none else some (PartStore.create hash size name)) := by
  have hlive := live_nextPartIndex h
  have hno : ∀ r ∈ w.history (nextPartIndex w.dir), ¬ r.Active := by
    obtain ⟨c, hc⟩ := h.phase (nextPartIndex w.dir)
    cases hc with
    | idle _ hno => exact hno
    | leftover _ _ _ hsome => rw [hlive] at hsome; cases hsome
    | active _ _ _ hsome => rw [hlive] at hsome; cases hsome
  have hrec : ∀ n, n ≠ 0 →
      (Action.create hash size name).record w n (nextPartIndex w.dir) =
        ⟨hash, if 5 ≤ n then [PartStore.create hash size name] else [], false⟩ ::
          w.history (nextPartIndex w.dir) := by
    intro n hn
    simp only [Action.record, if_neg hn, Function.update_self]
  have hafter := live_createFileOps hlive k (PartStore.create hash size name)
  by_cases hk : k < 5
  · rw [if_pos hk] at hafter ⊢
    refine Phase.idle hafter ?_
    have hmin : min k 5 = k := by omega
    show ∀ r ∈ (Action.create hash size name).record w (min k 5) _, _
    rw [hmin]
    by_cases hk0 : k = 0
    · rw [hk0]
      exact hno
    · rw [hrec k hk0, if_neg (by omega)]
      exact List.forall_mem_cons.mpr ⟨fun hact => hact.1 rfl, hno⟩
  · rw [if_neg hk] at hafter ⊢
    have hmin : min k 5 = 5 := by omega
    refine Phase.active _ ⟨hash, [PartStore.create hash size name], false⟩
      (w.history (nextPartIndex w.dir)) hafter
      ⟨PartStore.ok_create hash size name, PartStore.withinLimits_create hash size hname⟩
      (part_createFileOps (by omega) _ _ _) ?_ rfl rfl rfl hno
    show (Action.create hash size name).record w (min k 5) _ = _
    rw [hmin, hrec 5 (by decide)]
    rfl

theorem phaseAt_save {w : World} {i : Nat} {s u : PartStore} (hc : w.PhaseAt i (some s))
    (hu : w.stores i = some u) (hf : u.Fits) (hhash : u.pf.hash = s.pf.hash) {k : Nat}
    (hk : k ≠ 2) : (w.after (.save i) k).PhaseAt i (some (if k ≤ 1 then s else u)) := by
  have hops : (Action.save i).fileOps w = saveFileOps i u := by
    show ((w.stores i).map (saveFileOps i)).getD [] = _
    rw [hu]
    rfl
  have hlive := live_saveFileOps k i u w.dir
  have hpart := part_saveFileOps k i u w.dir
  unfold World.PhaseAt World.after
  rw [hops]
  cases hc with
  | active _ r t hsome hfs hp hhist hrhash hsaves hended hno =>
    by_cases hk1 : k ≤ 1
    · have hn : min k (saveFileOps i u).length < 3 := by omega
      rw [if_pos hk1] at hlive ⊢
      refine Phase.active s r t (hlive.trans hsome) hfs ?_ ?_ hrhash hsaves hended hno
      · dsimp only
        rw [hpart]
        exact hp
      · simp only [Action.record, if_pos hn, hhist]
    · have hn : ¬ min k (saveFileOps i u).length < 3 := by
        show ¬ min k 3 < 3
        omega
      rw [if_neg hk1, if_neg hk] at hlive
      rw [if_neg hk1]
      refine Phase.active u { r with saves := u :: r.saves } t hlive hf ?_ ?_
        (hrhash.trans hhash.symm) rfl hended hno
      · dsimp only
        rw [hpart]
        exact hp
      · simp only [Action.record, if_neg hn, Function.update_self, hhist, List.modifyHead_cons, hu]
        rfl

/-- The data file goes first, and with it the download has ended; the met follows. -/
theorem phaseAt_end {w : World} {i : Nat} {s : PartStore} (hc : w.PhaseAt i (some s)) {a : Action}
    (ha : a = .finish i ∨ a = .remove i) (k : Nat) :
    (w.after a k).PhaseAt i (if k = 0 then some s else none) := by
  obtain ⟨hlive, hpart⟩ := run_removeBackingFiles k i w.dir
  cases hc with
  | active _ r t hsome hfs hp hhist hrhash hsaves hended hno =>
    have hops : a.fileOps w = removeBackingFiles i := by
      rcases ha with rfl | rfl
      · exact finishFileOps_of_part hp
      · rfl
    have hrec : ∀ n, n ≠ 0 → a.record w n i = { r with ended := true } :: t := by
      intro n hn
      rcases ha with rfl | rfl <;>
        simp only [Action.record, if_neg hn, Function.update_self, hhist, List.modifyHead_cons]
    have hrec0 : a.record w 0 = w.history := by rcases ha with rfl | rfl <;> rfl
    unfold World.PhaseAt World.after
    rw [hops]
    by_cases hk0 : k = 0
    · rw [if_pos hk0, hk0, Nat.zero_min, hrec0]
      exact Phase.active s r t hsome hfs hp hhist hrhash hsaves hended hno
    · have hn : min k (removeBackingFiles i).length ≠ 0 := by
        show min k 2 ≠ 0
        omega
      have hinactive : ∀ r' ∈ a.record w (min k (removeBackingFiles i).length) i, ¬ r'.Active := by
        rw [hrec _ hn]
        exact List.forall_mem_cons.mpr ⟨fun hact => Bool.noConfusion hact.2, hno⟩
      rw [if_neg hk0] at hpart ⊢
      by_cases hk1 : k ≤ 1
      · rw [if_pos hk1] at hlive
        exact Phase.leftover s { r with ended := true } t (hlive.trans hsome) hfs hpart
          (hrec _ hn) hrhash hinactive
      · rw [if_neg hk1] at hlive
        exact Phase.idle hlive hinactive

theorem phaseAt_update {w : World} {i : Nat} {s : PartStore} (hc : w.PhaseAt i (some s))
    (op : StoreOp) (k : Nat) : (w.after (.update i op) k).PhaseAt i (some s) := by
  have hrun : (metDir (run ((Action.updateFileOps w i op).take k) w.dir) i).live =
        (metDir w.dir i).live ∧
      ((get w.dir (fileName i .part)).isSome →
        (get (run ((Action.updateFileOps w i op).take k) w.dir) (fileName i .part)).isSome) := by
    have hnone : ∀ n, (([] : List FileOp).take n) = [] := fun n => List.take_nil
    rcases updateFileOps_cases w i op with hops | ⟨file, hops⟩ <;> rw [hops]
    · rw [hnone]
      exact ⟨rfl, id⟩
    · cases k with
      | zero => exact ⟨rfl, id⟩
      | succ k =>
        rw [List.take_succ_cons, hnone]
        refine ⟨live_write_part w.dir i file, fun _ => ?_⟩
        show (get (write w.dir _ file) _).isSome
        rw [get_write, if_pos rfl]
        rfl
  cases hc with
  | active _ r t hsome hfs hp hhist hrhash hsaves hended hno =>
    exact Phase.active s r t (hrun.1.trans hsome) hfs (hrun.2 hp) hhist hrhash hsaves hended hno

/-! ## Steps and runs -/

/-- A store in memory is that of an active download. -/
theorem World.Ok.active {w : World} (h : w.Ok) {i : Nat} {u : PartStore}
    (hu : w.stores i = some u) :
    u.Ok ∧ ∃ s, w.PhaseAt i (some s) ∧ u.pf.hash = s.pf.hash := by
  obtain ⟨c, hc, hstores⟩ := h.phase i
  obtain ⟨hok, s, rfl, hhash⟩ := hstores u hu
  exact ⟨hok, s, hc, hhash⟩

theorem World.PhaseAt.live_ne {w : World} {i : Nat} {s : PartStore} (h : w.PhaseAt i (some s)) :
    (metDir w.dir i).live ≠ none := by
  cases h with
  | active _ _ _ hsome =>
    rw [hsome]
    exact Option.some_ne_none _

theorem World.Ok.index_range {w : World} (h : w.Ok) {a : Action} (hv : a.Valid w)
    (hs : a.Safe w) : 0 < a.index w ∧ a.index w < 2 ^ 32 := by
  have hstore : ∀ i, (∃ u, w.stores i = some u) → 0 < i ∧ i < 2 ^ 32 := by
    rintro i ⟨u, hu⟩
    obtain ⟨-, s, hc, -⟩ := h.active hu
    exact h.canonical.index_of_live hc.live_ne
  cases a with
  | create hash size name =>
    show 0 < nextPartIndex w.dir ∧ nextPartIndex w.dir < 2 ^ 32
    have hroom := hs.1
    rw [nextPartIndex_of_room hroom]
    exact ⟨Nat.succ_pos _, hroom⟩
  | update i op =>
    obtain ⟨u, hu, -⟩ := hv
    exact hstore i ⟨u, hu⟩
  | save i | finish i | remove i => exact hstore i hv

/-- The phase of the acted-on index after any number of file operations, and what the
    finished action leaves in memory there. -/
theorem World.Ok.phase_index {w : World} (h : w.Ok) (md4 : Bytes → Hash16) {a : Action}
    (hv : a.Valid w) (hs : a.Safe w) {k : Nat}
    (hk : ∀ i, a = .save i → k = 2 → (metDir w.dir i).live = none) :
    ∃ c, (w.after a k).PhaseAt (a.index w) c ∧ (k = (a.fileOps w).length →
      ∀ u, a.memory md4 w (a.index w) = some u → u.Ok ∧ ∃ s, c = some s ∧ u.pf.hash = s.pf.hash) := by
  cases a with
  | create hash size name =>
    refine ⟨_, phaseAt_create h.dirOk hs.2 k, fun hlen u hu => ?_⟩
    have hmem : (Action.create hash size name).memory md4 w (nextPartIndex w.dir) =
        some (PartStore.create hash size name) := Function.update_self ..
    have h5 : k = 5 := hlen
    rw [show Action.index w (.create hash size name) = nextPartIndex w.dir from rfl, hmem] at hu
    cases hu
    exact ⟨PartStore.ok_create hash size name, _, if_neg (by omega), rfl⟩
  | update i op =>
    obtain ⟨t, ht, hvalid⟩ := hv
    obtain ⟨hok, s, hc, hhash⟩ := h.active ht
    refine ⟨_, phaseAt_update hc op k, fun _ u hu => ?_⟩
    have hmem : (Action.update i op).memory md4 w i =
        some (op.apply md4 t (Action.partFile w i)).1 := by
      simp only [Action.memory, Function.update_self, ht, Option.map_some]
    rw [show Action.index w (.update i op) = i from rfl, hmem] at hu
    cases hu
    exact ⟨StoreOp.ok_apply hok _ hvalid, s, rfl,
      (StoreOp.hash_apply md4 t _ op).trans hhash⟩
  | save i =>
    obtain ⟨t, ht⟩ := hv
    obtain ⟨hok, s, hc, hhash⟩ := h.active ht
    have hk2 : k ≠ 2 := fun h2 => hc.live_ne (hk i rfl h2)
    refine ⟨_, phaseAt_save hc ht ⟨hok, hs t ht⟩ hhash hk2, fun hlen u hu => ?_⟩
    have hut : u = t := by
      rw [show (Action.save i).memory md4 w (Action.index w (.save i)) = w.stores i from rfl,
        ht] at hu
      exact (Option.some.inj hu).symm
    subst hut
    refine ⟨hok, _, rfl, ?_⟩
    split
    · exact hhash
    · rfl
  | finish i | remove i =>
    obtain ⟨t, ht⟩ := hv
    obtain ⟨-, s, hc, -⟩ := h.active ht
    refine ⟨_, phaseAt_end hc (by tauto) k, fun _ u hu => ?_⟩
    exact absurd ((Function.update_self ..).symm.trans hu) (by simp)

/-- However many file operations an action got done, the directory is in order. -/
theorem World.Ok.after {w : World} (h : w.Ok) {a : Action} (hv : a.Valid w) (hs : a.Safe w)
    {k : Nat} (hk : ∀ i, a = .save i → k = 2 → (metDir w.dir i).live = none) :
    (w.after a k).DirOk where
  canonical := ((onIndex_fileOps w a).take k).canonical_run (h.index_range hv hs) h.canonical
  phase := by
    intro j
    by_cases hj : j = a.index w
    · rw [hj]
      obtain ⟨c, hc, -⟩ := h.phase_index (fun _ => Digest.fill 16 0) hv hs hk
      exact ⟨c, hc⟩
    · obtain ⟨c, hc, -⟩ := h.phase j
      exact ⟨c, phaseAt_after_of_ne hj k hc⟩

theorem World.Ok.complete {w : World} (h : w.Ok) (md4 : Bytes → Hash16) {a : Action}
    (hv : a.Valid w) (hs : a.Safe w) : (w.complete md4 a).Ok where
  canonical := by
    have hon := (onIndex_fileOps w a).take (a.fileOps w).length
    exact hon.canonical_run (h.index_range hv hs) h.canonical
  phase := by
    intro j
    by_cases hj : j = a.index w
    · rw [hj]
      have hk : ∀ i, a = .save i → (a.fileOps w).length = 2 → (metDir w.dir i).live = none := by
        rintro i rfl hlen
        obtain ⟨t, ht⟩ := hv
        have hops : ((Action.save i).fileOps w).length = 3 := by
          show (((w.stores i).map (saveFileOps i)).getD []).length = 3
          rw [ht]
          rfl
        omega
      obtain ⟨c, hc, hmem⟩ := h.phase_index md4 hv hs hk
      exact ⟨c, hc, hmem rfl⟩
    · obtain ⟨c, hc, hstores⟩ := h.phase j
      refine ⟨c, phaseAt_after_of_ne hj _ hc, ?_⟩
      show ∀ u, a.memory md4 w j = some u → _
      rw [memory_of_ne md4 w a hj]
      exact hstores

theorem World.ok_step {w : World} (h : w.Ok) (md4 : Bytes → Hash16) {e : Event}
    (hv : e.action.Valid w) (hs : e.Safe w) : (w.step md4 e).Ok := by
  cases e with
  | done a => exact h.complete md4 hv hs
  | died a k => exact (h.after hv hs.1 (hs.2)).restart

theorem World.ok_empty : World.empty.Ok where
  canonical := fun _ hname => absurd hname List.not_mem_nil
  phase := fun _ => ⟨none, Phase.idle rfl fun _ hr => absurd hr List.not_mem_nil, fun _ hu => by cases hu⟩

theorem SafeRun.ok {md4 : Bytes → Hash16} {w : World} (h : SafeRun md4 w) : w.Ok := by
  induction h with
  | start => exact World.ok_empty
  | step e _ hv hs ih => exact World.ok_step ih md4 hv hs

/-- In a run whose steps are all safe, no download is lost, none is resumed in another
    file's state, and no index in use is handed out again. -/
theorem downloads_survive {md4 : Bytes → Hash16} {w : World} (h : SafeRun md4 w) :
    w.NoneLost ∧ w.NoneStale ∧ w.NoneClobbered :=
  h.ok.dirOk.holds

/-- A first 500-byte download, created in an empty directory. -/
def firstCreate : Action := .create (Digest.fill 16 0xAB) 500 [0x61]

def firstWorld : World := World.empty.complete (fun _ => Digest.fill 16 0) firstCreate

theorem safeRun_firstWorld : SafeRun (fun _ => Digest.fill 16 0) firstWorld :=
  SafeRun.step (.done firstCreate) SafeRun.start trivial
    ⟨show 0 + 1 < 2 ^ 32 by decide, by decide⟩

theorem history_firstWorld :
    firstWorld.history 1 = [⟨Digest.fill 16 0xAB, [freshStore], false⟩] := rfl

theorem first_download_survives : ∃ s ∈ [freshStore], (1, s) ∈ resumeDownloads firstWorld.dir :=
  (downloads_survive safeRun_firstWorld).1 1 ⟨Digest.fill 16 0xAB, [freshStore], false⟩
    (by rw [history_firstWorld]; exact List.mem_cons_self ..) ⟨List.cons_ne_nil _ _, rfl⟩

/-- The process dies between the two renames of the first download's next save. -/
def lostWorld : World := (firstWorld.after (.save 1) 2).restart

theorem crash_between_renames_loses :
    ¬ ∀ (md4 : Bytes → Hash16) (w : World), Run md4 w →
      w.NoneLost ∧ w.NoneStale ∧ w.NoneClobbered := by
  intro h
  have hfirst : Run (fun _ => Digest.fill 16 0) firstWorld :=
    Run.step (.done firstCreate) Run.start trivial
  have hrun : Run (fun _ => Digest.fill 16 0) lostWorld :=
    Run.step (.died (.save 1) 2) hfirst ⟨freshStore, rfl⟩
  have hhist : lostWorld.history 1 = [⟨Digest.fill 16 0xAB, [freshStore], false⟩] := rfl
  obtain ⟨s, -, hs⟩ := (h _ _ hrun).1 1 ⟨Digest.fill 16 0xAB, [freshStore], false⟩
    (by rw [hhist]; exact List.mem_cons_self ..) ⟨List.cons_ne_nil _ _, rfl⟩
  have hops : (Action.save 1).fileOps firstWorld = saveFileOps 1 freshStore := rfl
  have hdir : lostWorld.dir = FileMap.run ((saveFileOps 1 freshStore).take 2) firstWorld.dir := by
    rw [← hops]
    rfl
  have hcanonical : Canonical lostWorld.dir := by
    rw [hdir]
    have hon : OnIndex 1 (saveFileOps 1 freshStore) := onIndex_map_toFileOp 1 (saveOps freshStore)
    exact (hon.take 2).canonical_run (by decide) safeRun_firstWorld.ok.canonical
  refine (mem_metIndices hcanonical).mp (mem_resumeDownloads.mp hs).1 ?_
  rw [hdir, live_saveFileOps]
  rfl

end PadMule.Engine
