import PadMule.Engine.ConfigDir
import PadMule.Engine.Commit
import PadMule.Lib.Runs
import PadMule.Lib.Slots

/-
  `mule-engine/src/multi_source.rs`: a `Download` after its end.

  A download ends with `finish_to` or with `discard_files`, and its index may go to a new one.
  Session tasks, checkpoint snapshots and the user interface may still hold it. Each critical
  section of each download is one step here; what a commit writes goes through the handle, so
  after the end it reaches no name of the config dir any more.
  Nothing but `finish_to` asks whether the download has ended: a save writes the met again, over
  that of a new download at the index. In a run where the ended are `Quiet` they stay gone
  (`ended_stay_gone`).
-/

namespace PadMule.Engine

open Files PadMule.Proto FileMap

def MET_SAVE_BYTES : Nat := PARTSIZE

/-- `late`: `MET_SAVE_EVERY` has passed since the last save. -/
def metSaveDue (sinceSave : Nat) (late : Bool) : Bool := MET_SAVE_BYTES ≤ sinceSave || late

/-- A `Download` that somebody holds. -/
structure HeldDownload where
  index : Nat
  store : PartStore
  /-- What its live met holds: the last save, or what it was opened from. -/
  met : Bytes
  sinceMetSave : Nat
  cancelled : Bool
  ended : Bool

structure HeldWorld where
  dir : ConfigDir
  held : List HeldDownload

inductive HeldMove where
  | create (hash : Hash16) (size : UInt64) (name : Bytes)
  | writeAndSync (n start : Nat) (data : Bytes)
  | closeGap (n start stop : Nat) (late : Bool)
  | persist (n : Nat)
  | save (n : Nat) (ops : List (StoreOp × Bytes))
  | applyAichRecovery (n : Nat) (results : List (LeafSpan × Bool))
  | finishTo (n : Nat)
  | cancel (n : Nat)
  | discardFiles (n : Nat)

namespace HeldMove

/-- `set_paused`, and the part of `set_stopped` that reaches the disk. -/
def setPaused (n : Nat) (on : Bool) : HeldMove := .save n [(.setPaused on, [])]

def setPriority (n : Nat) (priority : UInt8) : HeldMove := .save n [(.setPriority priority, [])]

def resetAllGaps (n : Nat) : HeldMove := .save n [(.resetAllGaps, [])]

/-- The download a move is one of, unless it creates one. -/
def target : HeldMove → Option Nat
  | create .. => none
  | writeAndSync n .. | closeGap n .. | persist n | save n _ | applyAichRecovery n _ | finishTo n
  | cancel n | discardFiles n => some n

end HeldMove

namespace HeldDownload

/-- `store.save_met`, as far as it shows in memory. -/
def saved (h : HeldDownload) (s : PartStore) : HeldDownload :=
  { h with store := s, met := writePartMet s.metOf }

def fillGap (h : HeldDownload) (start stop : Nat) : HeldDownload :=
  { h with
    store := { h.store with pf := h.store.pf.fillGap start stop }
    sinceMetSave := h.sinceMetSave + (stop - start) }

end HeldDownload

namespace HeldWorld

/-- A critical section of download `n`: its file operations, and what becomes of it. -/
def put (w : HeldWorld) (n : Nat) (ops : List FileOp) (h : HeldDownload) : HeldWorld :=
  ⟨run ops w.dir, w.held.set n h⟩

def partExists (w : HeldWorld) (h : HeldDownload) : Bool :=
  (get w.dir (fileName h.index .part)).isSome

variable (md4 : Bytes → Hash16)

def saveMet (w : HeldWorld) (n : Nat) (h : HeldDownload) (s : PartStore) : HeldWorld :=
  w.put n (saveFileOps h.index s) (h.saved s)

/-- The last part of `commit`. -/
def closeGap (w : HeldWorld) (n start stop : Nat) (late : Bool) (h : HeldDownload) : HeldWorld :=
  let h := h.fillGap start stop
  if metSaveDue h.sinceMetSave late then w.saveMet n { h with sinceMetSave := 0 } h.store
  else w.put n [] h

/-- `apply_aich_recovery` opens the `.part` by its path. -/
def applyAichRecovery (w : HeldWorld) (n : Nat) (results : List (LeafSpan × Bool))
    (h : HeldDownload) : HeldWorld :=
  if w.partExists h then
    w.saveMet n h { h.store with pf := applyResults h.store.pf results }
  else w

def finishTo (w : HeldWorld) (n : Nat) (h : HeldDownload) : HeldWorld :=
  if h.cancelled || !w.partExists h then w
  else w.put n (finishFileOps w.dir h.index) { h with ended := true }

def writeAndSync (w : HeldWorld) (n start : Nat) (data : Bytes) (h : HeldDownload) : HeldWorld :=
  if h.ended then w
  else
    let file := (get w.dir (fileName h.index .part)).getD []
    w.put n [.write (fileName h.index .part) (writeAllAt file start data)] h

def step (w : HeldWorld) : HeldMove → Option HeldWorld
  | .create hash size name =>
    let i := nextPartIndex w.dir
    let s := PartStore.create hash size name
    some ⟨run (createFileOps i s) w.dir, w.held ++ [⟨i, s, writePartMet s.metOf, 0, false, false⟩]⟩
  | .writeAndSync n start data => w.held[n]?.map (w.writeAndSync n start data)
  | .closeGap n start stop late => w.held[n]?.map (w.closeGap n start stop late)
  | .persist n => w.held[n]?.map fun h => w.saveMet n { h with sinceMetSave := 0 } h.store
  | .save n ops => w.held[n]?.map fun h =>
    w.saveMet n h (ops.foldl (fun s op => (op.1.apply md4 s op.2).1) h.store)
  | .applyAichRecovery n results => w.held[n]?.map (w.applyAichRecovery n results)
  | .finishTo n => w.held[n]?.map (w.finishTo n)
  | .cancel n => w.held[n]?.map fun h => w.put n [] { h with cancelled := true }
  | .discardFiles n => w.held[n]?.bind fun h =>
    if h.cancelled then some (w.put n (removeBackingFiles h.index) { h with ended := true })
    else none

/-! ## What a run must respect, and what it keeps -/

/-- There is an index left for a new download, and an ended download does not save, does not
    remove, and does not reach for the `.part` of a new one. -/
def Quiet (w : HeldWorld) : HeldMove → Prop
  | .create .. => HasRoom w.dir
  | .closeGap n start stop late => ∀ h ∈ w.held[n]?, h.ended = true →
      metSaveDue (h.sinceMetSave + (stop - start)) late = false
  | .persist n | .save n _ | .discardFiles n => ∀ h ∈ w.held[n]?, h.ended = false
  | .applyAichRecovery n _ => ∀ h ∈ w.held[n]?, h.ended = true → w.partExists h = false
  | .finishTo n => ∀ h ∈ w.held[n]?, h.ended = true → h.cancelled = true ∨ w.partExists h = false
  | .writeAndSync .. | .cancel _ => True

instance (w : HeldWorld) : (m : HeldMove) → Decidable (w.Quiet m)
  | .create .. => inferInstanceAs (Decidable (_ < _))
  | .closeGap n start stop late => inferInstanceAs (Decidable (∀ h ∈ w.held[n]?, h.ended = true →
      metSaveDue (h.sinceMetSave + (stop - start)) late = false))
  | .persist n | .save n _ | .discardFiles n =>
    inferInstanceAs (Decidable (∀ h ∈ w.held[n]?, h.ended = false))
  | .applyAichRecovery n _ =>
    inferInstanceAs (Decidable (∀ h ∈ w.held[n]?, h.ended = true → w.partExists h = false))
  | .finishTo n => inferInstanceAs (Decidable (∀ h ∈ w.held[n]?, h.ended = true →
      h.cancelled = true ∨ w.partExists h = false))
  | .writeAndSync .. | .cancel _ => .isTrue trivial

/-- A step of an ended download leaves the config dir as it is. -/
def LeavesAlone (w : HeldWorld) (m : HeldMove) : Prop :=
  ∀ n ∈ m.target, ∀ h ∈ w.held[n]?, h.ended = true →
    ∀ w', w.step md4 m = some w' → w'.dir = w.dir

/-- A live download has the met it saved last, and the index of an ended one is resumed only where
    it has gone to a live one. -/
structure Sound (w : HeldWorld) : Prop where
  own : ∀ h ∈ w.held, h.ended = false → get w.dir (fileName h.index .met) = some h.met
  gone : ∀ h ∈ w.held, h.ended = true → ∀ s, (h.index, s) ∈ resumeDownloads w.dir →
    ∃ h' ∈ w.held, h'.index = h.index ∧ h'.ended = false

/-- As after a start: all downloads are live, each has an index and a met of its own. -/
structure Opened (w : HeldWorld) : Prop where
  canonical : Canonical w.dir
  live : ∀ h ∈ w.held, h.ended = false
  own : ∀ h ∈ w.held, get w.dir (fileName h.index .met) = some h.met
  apart : (w.held.map HeldDownload.index).Nodup

/-! ## The invariant -/

structure Ok (w : HeldWorld) : Prop where
  canonical : Canonical w.dir
  own : ∀ (n : Nat) h, w.held[n]? = some h → h.ended = false →
    get w.dir (fileName h.index .met) = some h.met
  apart : ∀ (n m : Nat) h h', w.held[n]? = some h → w.held[m]? = some h' → h.ended = false →
    h'.ended = false → h.index = h'.index → n = m
  gone : ∀ (n : Nat) h, w.held[n]? = some h → h.ended = true →
    get w.dir (fileName h.index .met) ≠ none →
      ∃ (m : Nat) (h' : HeldDownload), w.held[m]? = some h' ∧ h'.index = h.index ∧ h'.ended = false

variable {w w' : HeldWorld}

theorem Opened.ok (h : Opened w) : Ok w where
  canonical := h.canonical
  own n d hn _ := h.own d (List.mem_of_getElem? hn)
  apart n m d d' hn hm _ _ hindex := by
    have hn' : (w.held.map HeldDownload.index)[n]? = some d.index := by
      rw [List.getElem?_map, hn]
      rfl
    have hm' : (w.held.map HeldDownload.index)[m]? = some d.index := by
      rw [List.getElem?_map, hm, hindex]
      rfl
    exact (List.getElem?_inj (List.getElem?_eq_some_iff.mp hn').1 h.apart).mp (hn'.trans hm'.symm)
  gone n d hn hended := by
    rw [h.live d (List.mem_of_getElem? hn)] at hended
    cases hended

theorem Ok.sound (h : Ok w) : w.Sound where
  own d hd hlive := by
    obtain ⟨n, hn⟩ := List.mem_iff_getElem?.mp hd
    exact h.own n d hn hlive
  gone d hd hended s hs := by
    obtain ⟨n, hn⟩ := List.mem_iff_getElem?.mp hd
    have hlive := (mem_metIndices h.canonical).mp (mem_resumeDownloads.mp hs).1
    obtain ⟨m, d', hm, hindex, hlive'⟩ := h.gone n d hn hended hlive
    exact ⟨d', List.mem_of_getElem? hm, hindex, hlive'⟩

/-- Operations on the index of a live download leave the met of every other live one alone. -/
theorem Ok.own_of_ne (h : Ok w) {n : Nat} {d : HeldDownload} (hn : w.held[n]? = some d)
    (hlive : d.ended = false) {ops : List FileOp} (hops : OnIndex d.index ops) {m : Nat}
    {e : HeldDownload} (hne : m ≠ n) (hm : w.held[m]? = some e) (he : e.ended = false) :
    get (run ops w.dir) (fileName e.index .met) = some e.met := by
  have hindex : e.index ≠ d.index := fun heq => hne (h.apart m n e d hm hn he hlive heq)
  rw [hops.get_run hindex]
  exact h.own m e hm he

/-- The met of an ended download at another index stays with the live download there. -/
theorem Ok.gone_of_ne (h : Ok w) {n : Nat} {d d' : HeldDownload} (hn : w.held[n]? = some d)
    {ops : List FileOp} (hops : OnIndex d.index ops) {m : Nat} {e : HeldDownload}
    (hm : w.held[m]? = some e) (he : e.ended = true) (hindex : e.index ≠ d.index)
    (hmet : get (run ops w.dir) (fileName e.index .met) ≠ none) :
    ∃ (k : Nat) (e' : HeldDownload), (w.held.set n d')[k]? = some e' ∧ e'.index = e.index ∧
      e'.ended = false := by
  rw [hops.get_run hindex] at hmet
  obtain ⟨k, e', hk, hindex', hlive'⟩ := h.gone m e hm he hmet
  have hkn : k ≠ n := by
    rintro rfl
    rw [Option.some.inj (hk.symm.trans hn)] at hindex'
    exact hindex hindex'.symm
  exact ⟨k, e', (Slots.getElem?_set_ne hkn).trans hk, hindex', hlive'⟩

theorem Ok.canonical_run (h : Ok w) {n : Nat} {d : HeldDownload} (hn : w.held[n]? = some d)
    (hlive : d.ended = false) {ops : List FileOp} (hops : OnIndex d.index ops) :
    Canonical (run ops w.dir) := by
  have hmet : (metDir w.dir d.index).live ≠ none := by
    rw [metDir, h.own n d hn hlive]
    exact Option.some_ne_none _
  exact hops.canonical_run (h.canonical.index_of_live hmet) h.canonical

/-- A live download goes on under its index, and its met is what its operations leave. -/
theorem Ok.put (h : Ok w) {n : Nat} {d d' : HeldDownload} (hn : w.held[n]? = some d)
    (hlive : d.ended = false) {ops : List FileOp} (hops : OnIndex d.index ops)
    (hindex : d'.index = d.index) (hlive' : d'.ended = false)
    (hmet : get (run ops w.dir) (fileName d.index .met) = some d'.met) : Ok (w.put n ops d') where
  canonical := h.canonical_run hn hlive hops
  own m e hm he := by
    rcases Slots.getElem?_set_cases hm with ⟨-, rfl⟩ | ⟨hne, hold⟩
    · rw [hindex]
      exact hmet
    · exact h.own_of_ne hn hlive hops hne hold he
  apart m k e e' hm hk he he' hindex' := by
    rcases Slots.getElem?_set_cases hm with ⟨rfl, rfl⟩ | ⟨hne, hold⟩
    · rcases Slots.getElem?_set_cases hk with ⟨rfl, -⟩ | ⟨-, hold'⟩
      · rfl
      · exact h.apart m k d e' hn hold' hlive he' (hindex.symm.trans hindex')
    · rcases Slots.getElem?_set_cases hk with ⟨rfl, rfl⟩ | ⟨-, hold'⟩
      · exact h.apart m k e d hold hn he hlive (hindex'.trans hindex)
      · exact h.apart m k e e' hold hold' he he' hindex'
  gone m e hm he hsome := by
    rcases Slots.getElem?_set_cases hm with ⟨-, rfl⟩ | ⟨-, hold⟩
    · rw [hlive'] at he
      cases he
    · by_cases heq : e.index = d.index
      · exact ⟨n, d', Slots.getElem?_set_self hn, hindex.trans heq.symm, hlive'⟩
      · exact h.gone_of_ne hn hops hold he heq hsome

/-- A live download ends, and its met is gone. -/
theorem Ok.finish (h : Ok w) {n : Nat} {d : HeldDownload} (hn : w.held[n]? = some d)
    (hlive : d.ended = false) {ops : List FileOp} (hops : OnIndex d.index ops)
    (hmet : get (run ops w.dir) (fileName d.index .met) = none) :
    Ok (w.put n ops { d with ended := true }) where
  canonical := h.canonical_run hn hlive hops
  own m e hm he := by
    rcases Slots.getElem?_set_cases hm with ⟨-, rfl⟩ | ⟨hne, hold⟩
    · cases he
    · exact h.own_of_ne hn hlive hops hne hold he
  apart m k e e' hm hk he he' hindex := by
    rcases Slots.getElem?_set_cases hm with ⟨-, rfl⟩ | ⟨-, hold⟩
    · cases he
    · rcases Slots.getElem?_set_cases hk with ⟨-, rfl⟩ | ⟨-, hold'⟩
      · cases he'
      · exact h.apart m k e e' hold hold' he he' hindex
  gone m e hm he hsome := by
    rcases Slots.getElem?_set_cases hm with ⟨-, rfl⟩ | ⟨-, hold⟩
    · exact absurd hmet hsome
    · by_cases heq : e.index = d.index
      · rw [heq] at hsome
        exact absurd hmet hsome
      · exact h.gone_of_ne hn hops hold he heq hsome

/-- A download changes only in memory, and not in its index, its met or its end. -/
theorem Ok.inMemory (h : Ok w) {n : Nat} {d d' : HeldDownload} (hn : w.held[n]? = some d)
    (hindex : d'.index = d.index) (hended : d'.ended = d.ended) (hmet : d'.met = d.met) :
    Ok (w.put n [] d') := by
  have hold {m : Nat} {e : HeldDownload} (hm : (w.held.set n d')[m]? = some e) :
      ∃ e', w.held[m]? = some e' ∧ e.index = e'.index ∧ e.ended = e'.ended ∧ e.met = e'.met := by
    rcases Slots.getElem?_set_cases hm with ⟨rfl, rfl⟩ | ⟨-, hm⟩
    · exact ⟨d, hn, hindex, hended, hmet⟩
    · exact ⟨e, hm, rfl, rfl, rfl⟩
  refine ⟨h.canonical, fun m e hm he => ?_, fun m k e e' hm hk he he' heq => ?_,
    fun m e hm he hsome => ?_⟩
  · obtain ⟨o, ho, hi, hen, hme⟩ := hold hm
    rw [hi, hme]
    exact h.own m o ho (hen.symm.trans he)
  · obtain ⟨o, ho, hi, hen, -⟩ := hold hm
    obtain ⟨o', ho', hi', hen', -⟩ := hold hk
    exact h.apart m k o o' ho ho' (hen.symm.trans he) (hen'.symm.trans he')
      (hi.symm.trans (heq.trans hi'))
  · obtain ⟨o, ho, hi, hen, -⟩ := hold hm
    rw [hi] at hsome ⊢
    obtain ⟨k, e', hk, hindex', hlive'⟩ := h.gone m o ho (hen.symm.trans he) hsome
    by_cases hkn : k = n
    · subst hkn
      have heq := Option.some.inj (hk.symm.trans hn)
      subst heq
      exact ⟨k, d', Slots.getElem?_set_self hn, hindex.trans hindex', hended.trans hlive'⟩
    · exact ⟨k, e', (Slots.getElem?_set_ne hkn).trans hk, hindex', hlive'⟩

/-! ## The steps -/

theorem Ok.saveMet (h : Ok w) {n : Nat} {d d' : HeldDownload} (hn : w.held[n]? = some d)
    (hlive : d.ended = false) (hindex : d'.index = d.index) (hlive' : d'.ended = false)
    (s : PartStore) : Ok (w.saveMet n d' s) := by
  have hmet : get (run (saveFileOps d.index s) w.dir) (fileName d.index .met) =
      some (writePartMet s.metOf) := live_saveFileOps 3 d.index s w.dir
  unfold HeldWorld.saveMet
  rw [hindex]
  exact h.put hn hlive (onIndex_saveFileOps d.index s) hindex hlive' hmet

theorem Ok.closeGap (h : Ok w) {n start stop : Nat} {late : Bool}
    (hquiet : w.Quiet (.closeGap n start stop late)) {d : HeldDownload}
    (hn : w.held[n]? = some d) :
    Ok (w.closeGap n start stop late d) ∧
      (d.ended = true → (w.closeGap n start stop late d).dir = w.dir) := by
  unfold HeldWorld.closeGap
  dsimp only
  split_ifs with hdue
  · have hlive : d.ended = false := by
      by_contra hended
      have hnot : metSaveDue (d.fillGap start stop).sinceMetSave late = false :=
        hquiet d hn (by simpa using hended)
      exact absurd (hdue.symm.trans hnot) (by decide)
    refine ⟨h.saveMet hn hlive ?_ ?_ _, fun hended => ?_⟩
    · rfl
    · exact hlive
    · exact absurd (hlive.symm.trans hended) (by decide)
  · exact ⟨h.inMemory hn rfl rfl rfl, fun _ => rfl⟩

theorem Ok.applyAichRecovery (h : Ok w) {n : Nat} {results : List (LeafSpan × Bool)}
    (hquiet : w.Quiet (.applyAichRecovery n results)) {d : HeldDownload}
    (hn : w.held[n]? = some d) :
    Ok (w.applyAichRecovery n results d) ∧
      (d.ended = true → (w.applyAichRecovery n results d).dir = w.dir) := by
  unfold HeldWorld.applyAichRecovery
  split_ifs with hpart
  · have hlive : d.ended = false := by
      by_contra hended
      exact absurd (hpart.symm.trans (hquiet d hn (by simpa using hended))) (by decide)
    refine ⟨h.saveMet hn hlive rfl hlive _, fun hended => ?_⟩
    exact absurd (hlive.symm.trans hended) (by decide)
  · exact ⟨h, fun _ => rfl⟩

theorem Ok.finishTo (h : Ok w) {n : Nat} (hquiet : w.Quiet (.finishTo n)) {d : HeldDownload}
    (hn : w.held[n]? = some d) :
    Ok (w.finishTo n d) ∧ (d.ended = true → (w.finishTo n d).dir = w.dir) := by
  unfold HeldWorld.finishTo
  split_ifs with hrefused
  · exact ⟨h, fun _ => rfl⟩
  · rw [Bool.not_eq_true, Bool.or_eq_false_iff, Bool.not_eq_false'] at hrefused
    obtain ⟨hcancelled, hpart⟩ := hrefused
    have hlive : d.ended = false := by
      by_contra hended
      rcases hquiet d hn (by simpa using hended) with hc | hp
      · exact absurd (hcancelled.symm.trans hc) (by decide)
      · exact absurd (hpart.symm.trans hp) (by decide)
    rw [finishFileOps_of_part hpart]
    refine ⟨h.finish hn hlive (onIndex_removeBackingFiles d.index) ?_, fun hended => ?_⟩
    · exact (run_removeBackingFiles 2 d.index w.dir).1
    · exact absurd (hlive.symm.trans hended) (by decide)

theorem Ok.writeAndSync (h : Ok w) {n start : Nat} {data : Bytes} {d : HeldDownload}
    (hn : w.held[n]? = some d) :
    Ok (w.writeAndSync n start data d) ∧
      (d.ended = true → (w.writeAndSync n start data d).dir = w.dir) := by
  unfold HeldWorld.writeAndSync
  split_ifs with hended
  · exact ⟨h, fun _ => rfl⟩
  · rw [Bool.not_eq_true] at hended
    refine ⟨h.put hn hended (fun op hop name hname => ?_) rfl hended ?_,
      fun he => absurd (hended.symm.trans he) (by decide)⟩
    · rw [List.mem_singleton.mp hop] at hname
      exact ⟨.part, List.mem_singleton.mp hname⟩
    · exact (live_write_part w.dir d.index _).trans (h.own n d hn hended)

/-- The new download takes an index that no met is at. -/
theorem Ok.create (h : Ok w) (hroom : HasRoom w.dir) (hash : Hash16) (size : UInt64)
    (name : Bytes) (hstep : w.step md4 (.create hash size name) = some w') : Ok w' := by
  obtain ⟨i, hi⟩ : ∃ i, i = nextPartIndex w.dir := ⟨_, rfl⟩
  obtain ⟨s, hs⟩ : ∃ s, s = PartStore.create hash size name := ⟨_, rfl⟩
  have hw' : w' = ⟨run (createFileOps i s) w.dir,
      w.held ++ [⟨i, s, writePartMet s.metOf, 0, false, false⟩]⟩ := by
    rw [hi, hs]
    exact (Option.some.inj hstep).symm
  have hnone : get w.dir (fileName i .met) = none := by
    by_contra hsome
    exact nextPartIndex_ne h.canonical ((mem_metIndices h.canonical).mpr hsome) hi.symm
  have hrange : 0 < i ∧ i < 2 ^ 32 := by
    rw [hi, nextPartIndex_of_room hroom]
    exact ⟨Nat.succ_pos _, hroom⟩
  have hops := onIndex_createFileOps i s
  have hmet : get (run (createFileOps i s) w.dir) (fileName i .met) = some (writePartMet s.metOf) :=
    live_createFileOps hnone 5 s
  have hother {n : Nat} {d : HeldDownload} (hn : w.held[n]? = some d) (hd : d.ended = false) :
      d.index ≠ i := by
    rintro rfl
    exact absurd (hnone.symm.trans (h.own n d hn hd)) (by simp)
  subst hw'
  refine ⟨hops.canonical_run hrange h.canonical, fun n d hn hd => ?_,
    fun n m d d' hn hm hd hd' hindex => ?_, fun n d hn hd hsome => ?_⟩
  · rcases Slots.getElem?_concat_cases hn with hold | ⟨-, rfl⟩
    · rw [hops.get_run (hother hold hd)]
      exact h.own n d hold hd
    · exact hmet
  · rcases Slots.getElem?_concat_cases hn with hold | ⟨rfl, rfl⟩
    · rcases Slots.getElem?_concat_cases hm with hold' | ⟨-, rfl⟩
      · exact h.apart n m d d' hold hold' hd hd' hindex
      · exact absurd hindex (hother hold hd)
    · rcases Slots.getElem?_concat_cases hm with hold' | ⟨rfl, -⟩
      · exact absurd hindex.symm (hother hold' hd')
      · rfl
  · rcases Slots.getElem?_concat_cases hn with hold | ⟨-, rfl⟩
    · by_cases heq : d.index = i
      · exact ⟨_, _, Slots.getElem?_concat_new, heq.symm, rfl⟩
      · rw [hops.get_run heq] at hsome
        obtain ⟨m, d', hm, hindex, hlive⟩ := h.gone n d hold hd hsome
        exact ⟨m, d', Slots.getElem?_concat_old hm, hindex, hlive⟩
    · cases hd

/-- One step keeps the invariant, and if it is one of an ended download, the directory. -/
theorem Ok.step (h : Ok w) {m : HeldMove} (hquiet : w.Quiet m) (hstep : w.step md4 m = some w') :
    Ok w' ∧ ∀ n ∈ m.target, ∀ d ∈ w.held[n]?, d.ended = true → w'.dir = w.dir := by
  have hof {n : Nat} {d : HeldDownload} (hn : w.held[n]? = some d)
      (hdir : d.ended = true → w'.dir = w.dir) :
      ∀ k ∈ some n, ∀ e ∈ w.held[k]?, e.ended = true → w'.dir = w.dir := by
    intro k hk e he hended
    cases hk
    rw [Option.some.inj (he.symm.trans hn)] at hended
    exact hdir hended
  have hnot {d : HeldDownload} (hlive : d.ended = false) (hended : d.ended = true) :
      w'.dir = w.dir := absurd (hlive.symm.trans hended) (by decide)
  cases m with
  | create hash size name =>
    exact ⟨h.create md4 hquiet hash size name hstep, fun n hn => by cases hn⟩
  | writeAndSync n start data =>
    obtain ⟨d, hn, rfl⟩ := Option.map_eq_some_iff.mp hstep
    exact ⟨(h.writeAndSync hn).1, hof hn (h.writeAndSync hn).2⟩
  | closeGap n start stop late =>
    obtain ⟨d, hn, rfl⟩ := Option.map_eq_some_iff.mp hstep
    exact ⟨(h.closeGap hquiet hn).1, hof hn (h.closeGap hquiet hn).2⟩
  | persist n =>
    obtain ⟨d, hn, rfl⟩ := Option.map_eq_some_iff.mp hstep
    have hlive : d.ended = false := hquiet d hn
    refine ⟨h.saveMet hn hlive ?_ ?_ _, hof hn (hnot hlive)⟩
    · rfl
    · exact hlive
  | save n ops =>
    obtain ⟨d, hn, rfl⟩ := Option.map_eq_some_iff.mp hstep
    have hlive : d.ended = false := hquiet d hn
    exact ⟨h.saveMet hn hlive rfl hlive _, hof hn (hnot hlive)⟩
  | applyAichRecovery n results =>
    obtain ⟨d, hn, rfl⟩ := Option.map_eq_some_iff.mp hstep
    exact ⟨(h.applyAichRecovery hquiet hn).1, hof hn (h.applyAichRecovery hquiet hn).2⟩
  | finishTo n =>
    obtain ⟨d, hn, rfl⟩ := Option.map_eq_some_iff.mp hstep
    exact ⟨(h.finishTo hquiet hn).1, hof hn (h.finishTo hquiet hn).2⟩
  | cancel n =>
    obtain ⟨d, hn, rfl⟩ := Option.map_eq_some_iff.mp hstep
    exact ⟨h.inMemory hn rfl rfl rfl, hof hn fun _ => rfl⟩
  | discardFiles n =>
    obtain ⟨d, hn, hstep⟩ := Option.bind_eq_some_iff.mp hstep
    have hlive : d.ended = false := hquiet d hn
    split_ifs at hstep
    cases hstep
    have hmet := (run_removeBackingFiles 2 d.index w.dir).1
    exact ⟨h.finish hn hlive (onIndex_removeBackingFiles d.index) hmet, hof hn (hnot hlive)⟩

end HeldWorld

/-- Where nothing saves or removes through a download that has ended, it stays gone. -/
theorem ended_stay_gone (md4 : Bytes → Hash16) (w : HeldWorld) (hopened : w.Opened)
    (moves : List HeldMove)
    (hquiet : Runs.Throughout (HeldWorld.step md4) HeldWorld.Quiet w moves) :
    Runs.Throughout (HeldWorld.step md4) (HeldWorld.LeavesAlone md4) w moves ∧
      Runs.Always (HeldWorld.step md4) HeldWorld.Sound w moves := by
  have hstep (w : HeldWorld) (m : HeldMove) (w' : HeldWorld) (h : w.Ok) (hm : w.Quiet m)
      (hstep : w.step md4 m = some w') : w'.Ok := (h.step md4 hm hstep).1
  have hleaves (w : HeldWorld) (m : HeldMove) (h : w.Ok) (hm : w.Quiet m) :
      w.LeavesAlone md4 m :=
    fun n hn d hd hended w' hw' => (h.step md4 hm hw').2 n hn d hd hended
  exact ⟨hquiet.imp hstep hleaves hopened.ok,
    Runs.always_of_throughout hstep (fun _ h => h.sound) hopened.ok hquiet⟩

/-! ## Two instances -/

/-- A download of one byte is finished, and its index goes to the next one. -/
def reusedIndex : List HeldMove :=
  [.create (.fill 16 1) 1 [97], .writeAndSync 0 0 [7], .closeGap 0 0 1 false, .finishTo 0,
    .create (.fill 16 2) 1 [98]]

/-- A commit of the first one that is not due, a write of its last session and its cancellation
    come too late to matter. -/
theorem ended_quietly :
    ∃ w, Runs.run (HeldWorld.step fun _ => .fill 16 0) ⟨[], []⟩
        (reusedIndex ++ [.closeGap 0 0 1 false, .writeAndSync 0 0 [8], .cancel 0]) = some w ∧
      w.held.map (fun h => (h.index, h.ended)) = [(1, true), (1, false)] ∧ w.Sound := by
  have hmoves : (Runs.run (HeldWorld.step fun _ => .fill 16 0) ⟨[], []⟩
      (reusedIndex ++ [.closeGap 0 0 1 false, .writeAndSync 0 0 [8], .cancel 0])).map
        (fun w => w.held.map fun h => (h.index, h.ended)) = some [(1, true), (1, false)] := by
    decide +kernel
  obtain ⟨w, hrun, hheld⟩ := Option.map_eq_some_iff.mp hmoves
  have hopened : HeldWorld.Opened ⟨[], []⟩ :=
    ⟨fun _ h => absurd h List.not_mem_nil, fun _ h => absurd h List.not_mem_nil,
      fun _ h => absurd h List.not_mem_nil, List.nodup_nil⟩
  have hgone := ended_stay_gone (fun _ => .fill 16 0) ⟨[], []⟩ hopened
    (reusedIndex ++ [.closeGap 0 0 1 false, .writeAndSync 0 0 [8], .cancel 0]) (by decide +kernel)
  exact ⟨w, hrun, hheld, hgone.2.run hrun⟩

/-- A checkpoint that still has the first one in its snapshot saves it over the second one's met:
    the next start resumes the finished download. -/
theorem ended_comes_back :
    ∃ w w', Runs.run (HeldWorld.step fun _ => .fill 16 0) ⟨[], []⟩ reusedIndex = some w ∧
      w.step (fun _ => .fill 16 0) (.persist 0) = some w' ∧
      (openPart w.dir 1).toOption.map (·.pf.hash) = some (.fill 16 2) ∧
      (openPart w'.dir 1).toOption.map (·.pf.hash) = some (.fill 16 1) ∧
      ¬Runs.Throughout (HeldWorld.step fun _ => .fill 16 0)
        (HeldWorld.LeavesAlone fun _ => .fill 16 0) ⟨[], []⟩ (reusedIndex ++ [.persist 0]) ∧
      ¬w'.Sound := by
  have hmoves : ((Runs.run (HeldWorld.step fun _ => .fill 16 0) ⟨[], []⟩ reusedIndex).bind fun w =>
      (w.step (fun _ => .fill 16 0) (.persist 0)).map fun w' =>
        ([openPart w.dir 1, openPart w'.dir 1].map fun o => o.toOption.map (·.pf.hash),
          w.held.map HeldDownload.ended, w'.held.map fun h =>
            (h.ended, decide (get w'.dir (fileName h.index .met) = some h.met)))) =
      some ([some (.fill 16 2), some (.fill 16 1)], [true, false], [(true, true), (false, false)]) := by
    decide +kernel
  obtain ⟨w, hrun, hrest⟩ := Option.bind_eq_some_iff.mp hmoves
  obtain ⟨w', hstep, hres⟩ := Option.map_eq_some_iff.mp hrest
  obtain ⟨hhashes, hres⟩ := Prod.mk.inj hres
  obtain ⟨hended, hheld⟩ := Prod.mk.inj hres
  obtain ⟨hbefore, hrest⟩ := List.cons.inj hhashes
  have hafter := (List.cons.inj hrest).1
  refine ⟨w, w', hrun, hstep, hbefore, hafter, fun hleaves => ?_, fun hsound => ?_⟩
  · obtain ⟨d, hd, hdended⟩ : ∃ d, w.held[0]? = some d ∧ d.ended = true := by
      have hzero : (w.held.map HeldDownload.ended)[0]? = some true := by
        rw [hended]
        rfl
      rwa [List.getElem?_map, Option.map_eq_some_iff] at hzero
    have hsame := hleaves.after hrun 0 rfl d hd hdended w' hstep
    rw [hsame, hbefore] at hafter
    exact absurd hafter (by decide)
  · obtain ⟨d, hd, hdhas⟩ : ∃ d, w'.held[1]? = some d ∧ (d.ended,
        decide (get w'.dir (fileName d.index .met) = some d.met)) = (false, false) := by
      have hone : (w'.held.map fun h => (h.ended,
          decide (get w'.dir (fileName h.index .met) = some h.met)))[1]? = some (false, false) := by
        rw [hheld]
        rfl
      rwa [List.getElem?_map, Option.map_eq_some_iff] at hone
    obtain ⟨hlive, hnot⟩ := Prod.mk.inj hdhas
    exact of_decide_eq_false hnot (hsound.own d (List.mem_of_getElem? hd) hlive)

end PadMule.Engine
