import PadMule.Engine.Resume

/-
  `mule-engine/src/multi_source.rs`: one `Download` shared by any number of sessions.

  The transition system has one constructor for each stretch of code between two points
  where another task can run. `inner`, the download's lock, is free at every step except
  while an AICH recovery holds it across its await; a block write runs without it, under
  the store's write lock, piece by piece. A session may be dropped at any await: its
  blocking write goes on, its gap is never closed.

  What a read returns while a write is running is left open: `verify_part` gets any
  bytes, the recovery pass reads its blocks in pieces. `gap_list_backed` is the
  durability rule: nothing leaves the gap list, in memory or in any part.met, that the
  history does not account for.
-/

namespace PadMule.Engine

open Spans Files PadMule.Proto

/-- A block of the recovery set and its verified leaf. -/
structure LeafSpan where
  start : Nat
  len : Nat
  leaf : Hash20
deriving DecidableEq

/-- A block read back from disk and the leaf it was compared with. -/
structure BlockRead where
  start : Nat
  buf : Bytes
  leaf : Hash20
deriving DecidableEq

/-- What has happened to the data file so far. -/
structure History where
  written : List (Nat × Nat) -- start and length of each `write_and_sync` that returned Ok
  matched : List BlockRead -- blocks whose bytes hashed to their leaf

inductive WriteState where
  | waiting -- the writer is detached
  | writing (done : Nat) -- it holds the write lock, `done` bytes have landed
  | synced -- `write_and_sync` returned Ok
  | failed
deriving DecidableEq

/-- A `commit` whose writer has been detached. -/
structure Commit where
  start : Nat
  data : Bytes
  state : WriteState
  dropped : Bool

/-- An `apply_aich_recovery` that holds the lock: blocks to read, the bytes read of the
    first one, and the verdicts so far. -/
structure Recovery where
  todo : List LeafSpan
  buf : Bytes
  results : List (LeafSpan × Bool)

structure Download where
  store : PartStore
  file : Bytes
  commits : List Commit
  recovery : Option Recovery
  history : History
  mets : List (PartMet × History) -- every part.met written, with the history at that time

namespace Download

/-- A download just opened, with no session yet. -/
def opened (store : PartStore) (file : Bytes) : Download :=
  { store, file, commits := [], recovery := none, history := ⟨[], []⟩, mets := [] }

/-- `save_met`, which may fail to write. -/
def saveMet (d : Download) (written : Bool) : Download :=
  if written then { d with mets := (d.store.metOf, d.history) :: d.mets } else d

def setPf (d : Download) (pf : PartFile) : Download := { d with store := { d.store with pf } }

end Download

/-- `verify_ready_parts`' loop. `reads p` is what reading part `p` returns; a read error
    ends it. -/
def verifyReadyParts (md4 : Bytes → Hash16) (reads : Nat → Option Bytes) :
    PartStore → List Nat → PartStore × Bool
  | s, [] => (s, true)
  | s, p :: ps =>
    if s.pf.isPartComplete p then
      match reads p with
      | none => (s, false)
      | some buf => verifyReadyParts md4 reads (s.applyVerdict p (s.verifyHash md4 p buf)) ps
    else verifyReadyParts md4 reads s ps

/-- Fill the blocks that matched, re-open the others. -/
def applyResults (pf : PartFile) (results : List (LeafSpan × Bool)) : PartFile :=
  results.foldl (fun pf r =>
    if r.2 then pf.fillGap r.1.start (r.1.start + r.1.len)
    else pf.reopenRange r.1.start (r.1.start + r.1.len)) pf

section

variable (md4 : Bytes → Hash16) (sha1 : Bytes → Hash20) (verified : LeafSpan → Prop)

/-- One stretch of one task. `verified` are the leaves accepted against the trusted
    root. -/
inductive Step : Download → Download → Prop where
  /-- `commit` takes the lock and detaches a writer -/
  | detach {d : Download} (start : Nat) (data : Bytes) :
    d.recovery = none → data ≠ [] →
      Step d { d with commits := ⟨start, data, .waiting, false⟩ :: d.commits }
  /-- `write_and_sync` refuses a block past the end -/
  | refuse {d : Download} {cs ds : List Commit} {c : Commit} :
    d.commits = cs ++ c :: ds → c.state = .waiting → d.store.pf.size < c.start + c.data.length →
      Step d { d with commits := cs ++ { c with state := .failed } :: ds }
  /-- it takes the write lock -/
  | lockWriter {d : Download} {cs ds : List Commit} {c : Commit} :
    d.commits = cs ++ c :: ds → c.state = .waiting →
      c.start + c.data.length ≤ d.store.pf.size →
      (∀ c' ∈ d.commits, ∀ n, c'.state ≠ .writing n) →
      Step d { d with commits := cs ++ { c with state := .writing 0 } :: ds }
  /-- more bytes land -/
  | land {d : Download} {cs ds : List Commit} {c : Commit} {done : Nat} (n : Nat) :
    d.commits = cs ++ c :: ds → c.state = .writing done → done + n ≤ c.data.length →
      Step d { d with
        file := writeAllAt d.file (c.start + done) ((c.data.drop done).take n)
        commits := cs ++ { c with state := .writing (done + n) } :: ds }
  /-- `sync_data` returns Ok after the last byte -/
  | syncOk {d : Download} {cs ds : List Commit} {c : Commit} :
    d.commits = cs ++ c :: ds → c.state = .writing c.data.length →
      Step d { d with
        commits := cs ++ { c with state := .synced } :: ds
        history := { d.history with written := (c.start, c.data.length) :: d.history.written } }
  /-- the write or the sync fails -/
  | writeFails {d : Download} {cs ds : List Commit} {c : Commit} {done : Nat} :
    d.commits = cs ++ c :: ds → c.state = .writing done →
      Step d { d with commits := cs ++ { c with state := .failed } :: ds }
  /-- the session is dropped at an await -/
  | drop {d : Download} {cs ds : List Commit} {c : Commit} :
    d.commits = cs ++ c :: ds →
      Step d { d with commits := cs ++ { c with dropped := true } :: ds }
  /-- `commit` retakes the lock, closes the gap and saves if a save is due -/
  | close {d : Download} {cs ds : List Commit} {c : Commit} (due : Bool) :
    d.recovery = none → d.commits = cs ++ c :: ds → c.state = .synced → c.dropped = false →
      Step d (({ d with commits := cs ++ ds }.setPf
        (d.store.pf.fillGap c.start (c.start + c.data.length))).saveMet due)
  /-- `verify_ready_parts`; without a save after a read error -/
  | verifyReady {d : Download} (reads : Nat → Option Bytes) (written : Bool) :
    d.recovery = none →
      Step d (({ d with store := (verifyReadyParts md4 reads d.store
          (List.range (dataPartCount d.store.pf.size))).1 } : Download).saveMet
        ((verifyReadyParts md4 reads d.store (List.range (dataPartCount d.store.pf.size))).2 &&
          written))
  /-- `localize_corruption` re-gaps the parts its scan found bad -/
  | localize {d : Download} (bad : List Nat) (written : Bool) :
    d.recovery = none → (∀ p ∈ bad, p < dataPartCount d.store.pf.size) →
      Step d ((d.setPf (bad.foldl (fun pf p => pf.markCorrupt p) d.store.pf)).saveMet written)
  /-- `apply_aich_recovery` takes the lock -/
  | recover {d : Download} (spans : List LeafSpan) :
    d.recovery = none → (∀ sp ∈ spans, verified sp) →
      Step d { d with recovery := some ⟨spans, [], []⟩ }
  /-- it reads on in its first block -/
  | readBlock {d : Download} {r : Recovery} {sp : LeafSpan} {todo : List LeafSpan} (n : Nat) :
    d.recovery = some r → r.todo = sp :: todo → r.buf.length + n ≤ sp.len →
      sp.start + r.buf.length + n ≤ d.file.length →
      Step d { d with recovery := some { r with
        buf := r.buf ++ (d.file.drop (sp.start + r.buf.length)).take n } }
  /-- it hashes the block it has read -/
  | hashBlock {d : Download} {r : Recovery} {sp : LeafSpan} {todo : List LeafSpan} :
    d.recovery = some r → r.todo = sp :: todo → r.buf.length = sp.len →
      Step d { d with
        recovery := some ⟨todo, [], r.results ++ [(sp, decide (sha1 r.buf = sp.leaf))]⟩
        history := if sha1 r.buf = sp.leaf then
            { d.history with matched := ⟨sp.start, r.buf, sp.leaf⟩ :: d.history.matched }
          else d.history }
  /-- it applies the verdicts, saves and releases the lock -/
  | applyRecovery {d : Download} {r : Recovery} (written : Bool) :
    d.recovery = some r → r.todo = [] →
      Step d (({ d with recovery := none }.setPf (applyResults d.store.pf r.results)).saveMet written)
  /-- it is dropped at its await, or a read fails -/
  | abandon {d : Download} {r : Recovery} :
    d.recovery = some r → Step d { d with recovery := none }
  /-- it checks a part it completed against its MD4 -/
  | verifyRecovered {d : Download} (part : Nat) (buf : Option Bytes) (written : Bool) :
    d.recovery = none → part < dataPartCount d.store.pf.size →
      Step d (({ d with store :=
        d.store.applyVerdict part (buf.bind (d.store.verifyHash md4 part)) } : Download).saveMet
          written)
  /-- `reset_all_gaps` -/
  | reset {d : Download} (written : Bool) :
    d.recovery = none → Step d ((d.setPf d.store.pf.resetAllGaps).saveMet written)
  /-- a save on its own -/
  | save {d : Download} (written : Bool) : d.recovery = none → Step d (d.saveMet written)

/-- Any interleaving from an opened download. -/
inductive ReachableFrom (s : PartStore) (file : Bytes) : Download → Prop where
  | opened : ReachableFrom s file (Download.opened s file)
  | step {d d' : Download} :
    ReachableFrom s file d → Step md4 sha1 verified d d' → ReachableFrom s file d'

end

/-! ## Operations that only re-open -/

/-- `pf'` asks for everything `pf` asks for. -/
structure Reopens (pf pf' : PartFile) : Prop where
  ok : pf'.Ok
  size_eq : pf'.size = pf.size
  cover_le : cover pf.gaps ⊆ cover pf'.gaps

theorem Reopens.refl {pf : PartFile} (h : pf.Ok) : Reopens pf pf := ⟨h, rfl, subset_rfl⟩

theorem Reopens.trans {pf pf' pf'' : PartFile} (h : Reopens pf pf') (h' : Reopens pf' pf'') :
    Reopens pf pf'' :=
  ⟨h'.ok, h'.size_eq.trans h.size_eq, h.cover_le.trans h'.cover_le⟩

theorem reopens_clearCorrupt {pf : PartFile} (h : pf.Ok) (p : Nat) :
    Reopens pf (pf.clearCorrupt p) := ⟨⟨h.tidy, h.stop_le⟩, rfl, subset_rfl⟩

theorem reopens_markCorrupt {pf : PartFile} (h : pf.Ok) (p : Nat) :
    Reopens pf (pf.markCorrupt p) where
  ok := PartFile.ok_markCorrupt pf p
  size_eq := pf.size_markCorrupt p
  cover_le := by
    rw [PartFile.cover_markCorrupt h]
    exact Set.subset_union_left

theorem reopens_reopenRange {pf : PartFile} (h : pf.Ok) (a b : Nat) :
    Reopens pf (pf.reopenRange a b) where
  ok := h.reopenRange a b
  size_eq := pf.size_reopenRange a b
  cover_le := by
    rw [PartFile.cover_reopenRange h]
    split
    · exact Set.subset_union_left
    · exact subset_rfl

theorem reopens_resetAllGaps {pf : PartFile} (h : pf.Ok) : Reopens pf pf.resetAllGaps where
  ok := PartFile.ok_resetAllGaps pf
  size_eq := rfl
  cover_le := by
    show _ ⊆ cover (wholeGap pf.size)
    rw [PartFile.cover_wholeGap]
    exact h.cover_lt

theorem reopens_applyVerdict {s : PartStore} (h : s.pf.Ok) (p : Nat) (v : Option Bool) :
    Reopens s.pf (s.applyVerdict p v).pf := by
  match v with
  | some true => exact reopens_clearCorrupt h p
  | some false => exact reopens_markCorrupt h p
  | none => exact Reopens.refl h

theorem reopens_verifyReadyParts (md4 : Bytes → Hash16) (reads : Nat → Option Bytes)
    (ps : List Nat) {s : PartStore} (h : s.pf.Ok) :
    Reopens s.pf (verifyReadyParts md4 reads s ps).1.pf := by
  induction ps generalizing s with
  | nil => exact Reopens.refl h
  | cons p ps ih =>
    unfold verifyReadyParts
    split
    · cases reads p with
      | none => exact Reopens.refl h
      | some buf =>
        have hone := reopens_applyVerdict h p (s.verifyHash md4 p buf)
        exact hone.trans (ih hone.ok)
    · exact ih h

theorem reopens_markCorrupts (ps : List Nat) {pf : PartFile} (h : pf.Ok) :
    Reopens pf (ps.foldl (fun pf p => pf.markCorrupt p) pf) := by
  induction ps generalizing pf with
  | nil => exact Reopens.refl h
  | cons p ps ih =>
    have hone := reopens_markCorrupt h p
    exact hone.trans (ih hone.ok)

/-! ## Backed gap lists -/

section

variable (sha1 : Bytes → Hash20) (verified : LeafSpan → Prop) (present : Set Nat)

/-- Byte `b` was there at open, or a write of it returned Ok, or it lies in a block read
    back from disk that hashed to a verified leaf. -/
def History.Accounts (h : History) (b : Nat) : Prop :=
  b ∈ present ∨ (∃ w ∈ h.written, w.1 ≤ b ∧ b < w.1 + w.2) ∨
    ∃ m ∈ h.matched, sha1 m.buf = m.leaf ∧ verified ⟨m.start, m.buf.length, m.leaf⟩ ∧
      m.start ≤ b ∧ b < m.start + m.buf.length

/-- The history accounts for every byte outside the gap list. -/
def Backed (h : History) (size : Nat) (gaps : List Gap) : Prop :=
  ∀ b < size, b ∉ cover gaps → h.Accounts sha1 verified present b

variable {sha1 verified present}

/-- The history only grows. -/
structure History.Extends (h h' : History) : Prop where
  written : h.written ⊆ h'.written
  matched : h.matched ⊆ h'.matched

theorem History.Accounts.mono {h h' : History} (he : h.Extends h') {b : Nat}
    (ha : h.Accounts sha1 verified present b) : h'.Accounts sha1 verified present b := by
  rcases ha with hp | ⟨w, hw, hb⟩ | ⟨m, hm, hb⟩
  · exact Or.inl hp
  · exact Or.inr (Or.inl ⟨w, he.written hw, hb⟩)
  · exact Or.inr (Or.inr ⟨m, he.matched hm, hb⟩)

theorem Backed.mono {h h' : History} (he : h.Extends h') {size : Nat} {gaps : List Gap}
    (hb : Backed sha1 verified present h size gaps) :
    Backed sha1 verified present h' size gaps :=
  fun b hlt hnot => (hb b hlt hnot).mono he

theorem Backed.reopens {h : History} {pf pf' : PartFile} (hr : Reopens pf pf')
    (hb : Backed sha1 verified present h pf.size pf.gaps) :
    Backed sha1 verified present h pf'.size pf'.gaps := by
  intro b hlt hnot
  rw [hr.size_eq] at hlt
  exact hb b hlt fun hin => hnot (hr.cover_le hin)

/-- A gap may be closed where the history accounts for it. -/
theorem Backed.fillGap {h : History} {pf : PartFile} (hok : pf.Ok)
    (hb : Backed sha1 verified present h pf.size pf.gaps) {start stop : Nat}
    (hfill : ∀ b, start ≤ b → b < stop → h.Accounts sha1 verified present b) :
    Backed sha1 verified present h (pf.fillGap start stop).size (pf.fillGap start stop).gaps := by
  intro b hlt hnot
  rw [PartFile.size_fillGap] at hlt
  rw [PartFile.cover_fillGap hok] at hnot
  by_cases hin : b ∈ Set.Ico start stop
  · exact hfill b hin.1 hin.2
  · exact hb b hlt fun hgap => hnot ⟨hgap, hin⟩

/-- Every block judged good is in the history. -/
def GoodMatched (sha1 : Bytes → Hash20) (verified : LeafSpan → Prop) (h : History)
    (results : List (LeafSpan × Bool)) : Prop :=
  ∀ r ∈ results, r.2 = true → ∃ m ∈ h.matched, sha1 m.buf = m.leaf ∧
    verified ⟨m.start, m.buf.length, m.leaf⟩ ∧ m.start = r.1.start ∧ m.buf.length = r.1.len

theorem Backed.applyResults {h : History} {results : List (LeafSpan × Bool)}
    (hg : GoodMatched sha1 verified h results) {pf : PartFile} (hok : pf.Ok)
    (hb : Backed sha1 verified present h pf.size pf.gaps) :
    (applyResults pf results).Ok ∧ (applyResults pf results).size = pf.size ∧
      Backed sha1 verified present h (applyResults pf results).size
        (applyResults pf results).gaps := by
  unfold PadMule.Engine.applyResults
  induction results generalizing pf with
  | nil => exact ⟨hok, rfl, hb⟩
  | cons r results ih =>
    obtain ⟨hr, hrest⟩ := List.forall_mem_cons.mp hg
    rw [List.foldl_cons]
    cases hv : r.2 with
    | true =>
      rw [if_pos rfl]
      obtain ⟨m, hm, hhash, hver, hstart, hlen⟩ := hr hv
      have hacc : ∀ b, r.1.start ≤ b → b < r.1.start + r.1.len →
          h.Accounts sha1 verified present b :=
        fun b h₁ h₂ => Or.inr (Or.inr ⟨m, hm, hhash, hver, by omega, by omega⟩)
      obtain ⟨h₁, h₂, h₃⟩ := ih hrest (hok.fillGap _ _) (hb.fillGap hok hacc)
      exact ⟨h₁, h₂.trans (pf.size_fillGap _ _), h₃⟩
    | false =>
      rw [if_neg Bool.false_ne_true]
      have hre := reopens_reopenRange hok r.1.start (r.1.start + r.1.len)
      obtain ⟨h₁, h₂, h₃⟩ := ih hrest hre.ok (hb.reopens hre)
      exact ⟨h₁, h₂.trans hre.size_eq, h₃⟩

/-! ## The invariant -/

/-- What every step preserves, for a file of `size` bytes. -/
structure Download.Inv (sha1 : Bytes → Hash20) (verified : LeafSpan → Prop) (present : Set Nat)
    (size : Nat) (d : Download) : Prop where
  size_lt : size < 2 ^ 64
  ok : d.store.pf.Ok
  size_eq : d.store.pf.size = size
  backed : Backed sha1 verified present d.history size d.store.pf.gaps
  synced : ∀ c ∈ d.commits, c.state = .synced → (c.start, c.data.length) ∈ d.history.written
  recovery : ∀ r, d.recovery = some r →
    (∀ sp ∈ r.todo, verified sp) ∧ GoodMatched sha1 verified d.history r.results
  mets : ∀ m ∈ d.mets, Backed sha1 verified present m.2 size (gaps m.1)

variable {size : Nat}

/-- The list a save writes is the list in memory. -/
theorem Download.Inv.saveMet {d : Download} (h : d.Inv sha1 verified present size)
    (written : Bool) : (d.saveMet written).Inv sha1 verified present size := by
  unfold Download.saveMet
  split
  · refine ⟨h.size_lt, h.ok, h.size_eq, h.backed, h.synced, h.recovery, ?_⟩
    refine List.forall_mem_cons.mpr ⟨?_, h.mets⟩
    dsimp only
    rw [gaps_metOf ⟨h.ok, h.size_eq ▸ h.size_lt⟩]
    exact h.backed
  · exact h

/-- A new gap list that is backed, with the rest of the download unchanged or idle. -/
theorem Download.Inv.setStore {d d' : Download} (h : d.Inv sha1 verified present size)
    (hok : d'.store.pf.Ok) (hsize : d'.store.pf.size = size)
    (hb : Backed sha1 verified present d.history size d'.store.pf.gaps)
    (hcommits : ∀ c ∈ d'.commits, c ∈ d.commits) (hrec : d'.recovery = none)
    (hhist : d'.history = d.history) (hmets : d'.mets = d.mets) :
    d'.Inv sha1 verified present size where
  size_lt := h.size_lt
  ok := hok
  size_eq := hsize
  backed := hhist ▸ hb
  synced := fun c hc hs => hhist ▸ h.synced c (hcommits c hc) hs
  recovery := fun r hr => by rw [hrec] at hr; cases hr
  mets := hmets ▸ h.mets

/-- The lock-held operations that only re-open. -/
theorem Download.Inv.reopens {d : Download} (h : d.Inv sha1 verified present size) {s : PartStore}
    (hr : Reopens d.store.pf s.pf) (hrec : d.recovery = none) :
    ({ d with store := s } : Download).Inv sha1 verified present size := by
  have hb := h.backed
  rw [← h.size_eq] at hb
  have hsize : s.pf.size = size := hr.size_eq.trans h.size_eq
  exact h.setStore hr.ok hsize (hsize ▸ hb.reopens hr) (fun _ hc => hc) hrec rfl rfl

/-- A commit that moves on without having synced, or drops. -/
theorem Download.Inv.moveCommit {d : Download} (h : d.Inv sha1 verified present size)
    {cs ds : List Commit} {c c' : Commit} (hc : d.commits = cs ++ c :: ds) (file : Bytes)
    (hs : c'.state = .synced → (c'.start, c'.data.length) ∈ d.history.written) :
    ({ d with file, commits := cs ++ c' :: ds } : Download).Inv sha1 verified present size where
  size_lt := h.size_lt
  ok := h.ok
  size_eq := h.size_eq
  backed := h.backed
  synced := by
    intro e he
    rcases List.mem_append.mp he with he | he
    · exact h.synced e (hc ▸ List.mem_append_left _ he)
    · rcases List.mem_cons.mp he with rfl | he
      · exact hs
      · exact h.synced e (hc ▸ List.mem_append_right _ (List.mem_cons_of_mem _ he))
  recovery := h.recovery
  mets := h.mets

/-- An event more in the history. -/
theorem Download.Inv.extend {d : Download} (h : d.Inv sha1 verified present size) {h' : History}
    (he : d.history.Extends h') :
    ({ d with history := h' } : Download).Inv sha1 verified present size where
  size_lt := h.size_lt
  ok := h.ok
  size_eq := h.size_eq
  backed := h.backed.mono he
  synced := fun c hc hs => he.written (h.synced c hc hs)
  recovery := by
    intro r hr
    obtain ⟨htodo, hgood⟩ := h.recovery r hr
    refine ⟨htodo, fun x hx hv => ?_⟩
    obtain ⟨m, hm, hrest⟩ := hgood x hx hv
    exact ⟨m, he.matched hm, hrest⟩
  mets := h.mets

theorem Download.inv_step {md4 : Bytes → Hash16} {d d' : Download}
    (h : d.Inv sha1 verified present size) (hstep : Step md4 sha1 verified d d') :
    d'.Inv sha1 verified present size := by
  cases hstep with
  | detach start data hrec hne =>
    refine ⟨h.size_lt, h.ok, h.size_eq, h.backed, ?_, h.recovery, h.mets⟩
    exact List.forall_mem_cons.mpr ⟨(fun hs => by cases hs), h.synced⟩
  | refuse hc _ _ => exact h.moveCommit hc d.file fun hs => by cases hs
  | lockWriter hc _ _ _ => exact h.moveCommit hc d.file fun hs => by cases hs
  | land n hc _ _ => exact h.moveCommit hc _ fun hs => by cases hs
  | @syncOk cs ds c hc _ =>
    have he : d.history.Extends
        { d.history with written := (c.start, c.data.length) :: d.history.written } :=
      ⟨List.subset_cons_self _ _, List.Subset.refl _⟩
    exact (h.extend he).moveCommit hc d.file fun _ => List.mem_cons_self ..
  | writeFails hc _ => exact h.moveCommit hc d.file fun hs => by cases hs
  | @drop cs ds c hc =>
    refine h.moveCommit hc d.file fun hs => h.synced c ?_ hs
    rw [hc]
    exact List.mem_append_right _ (List.mem_cons_self ..)
  | @close cs ds c due hrec hc hs hd =>
    have hmem : c ∈ d.commits := by
      rw [hc]
      exact List.mem_append_right _ (List.mem_cons_self ..)
    have hb := h.backed
    rw [← h.size_eq] at hb
    have hfill := hb.fillGap h.ok fun b h₁ h₂ =>
      Or.inr (Or.inl ⟨_, h.synced c hmem hs, h₁, h₂⟩)
    have hsize : (d.store.pf.fillGap c.start (c.start + c.data.length)).size = size :=
      (d.store.pf.size_fillGap _ _).trans h.size_eq
    refine Download.Inv.saveMet ?_ due
    refine h.setStore ?_ hsize ?_ ?_ hrec rfl rfl
    · exact h.ok.fillGap _ _
    · exact hsize ▸ hfill
    intro e he
    rw [hc]
    rcases List.mem_append.mp he with he | he
    · exact List.mem_append_left _ he
    · exact List.mem_append_right _ (List.mem_cons_of_mem _ he)
  | verifyReady reads written hrec =>
    exact (h.reopens (reopens_verifyReadyParts md4 reads _ h.ok) hrec).saveMet _
  | localize bad written hrec hbad =>
    exact (h.reopens (s := { d.store with pf := _ }) (reopens_markCorrupts bad h.ok) hrec).saveMet _
  | recover spans hrec hver =>
    refine ⟨h.size_lt, h.ok, h.size_eq, h.backed, h.synced, ?_, h.mets⟩
    intro r hr
    cases hr
    exact ⟨hver, fun x hx => absurd hx List.not_mem_nil⟩
  | @readBlock r sp todo n hr htodo hlen hfile =>
    refine ⟨h.size_lt, h.ok, h.size_eq, h.backed, h.synced, ?_, h.mets⟩
    intro r' hr'
    cases hr'
    exact h.recovery r hr
  | @hashBlock r sp todo hr htodo hlen =>
    obtain ⟨hver, hgood⟩ := h.recovery r hr
    rw [htodo] at hver
    obtain ⟨hsp, hver⟩ := List.forall_mem_cons.mp hver
    by_cases heq : sha1 r.buf = sp.leaf
    · have he : d.history.Extends
          { d.history with matched := ⟨sp.start, r.buf, sp.leaf⟩ :: d.history.matched } :=
        ⟨List.Subset.refl _, List.subset_cons_self _ _⟩
      have hx := h.extend he
      rw [if_pos heq]
      refine ⟨hx.size_lt, hx.ok, hx.size_eq, hx.backed, hx.synced, ?_, hx.mets⟩
      intro r' hr'
      cases hr'
      refine ⟨hver, fun x hx' hv => ?_⟩
      rcases List.mem_append.mp hx' with hx' | hx'
      · exact (hx.recovery r hr).2 x hx' hv
      · rw [List.mem_singleton.mp hx']
        exact ⟨_, List.mem_cons_self .., heq, by rw [hlen]; exact hsp, rfl, hlen⟩
    · rw [if_neg heq]
      refine ⟨h.size_lt, h.ok, h.size_eq, h.backed, h.synced, ?_, h.mets⟩
      intro r' hr'
      cases hr'
      refine ⟨hver, fun x hx' hv => ?_⟩
      rcases List.mem_append.mp hx' with hx' | hx'
      · exact hgood x hx' hv
      · rw [List.mem_singleton.mp hx'] at hv
        exact absurd (of_decide_eq_true hv) heq
  | @applyRecovery r written hr htodo =>
    have hb := h.backed
    rw [← h.size_eq] at hb
    obtain ⟨h₁, h₂, h₃⟩ := hb.applyResults (h.recovery r hr).2 h.ok
    have hsize := h₂.trans h.size_eq
    refine Download.Inv.saveMet ?_ written
    refine h.setStore ?_ hsize ?_ (fun _ hc => hc) rfl rfl rfl
    · exact h₁
    · exact hsize ▸ h₃
  | abandon hr =>
    exact ⟨h.size_lt, h.ok, h.size_eq, h.backed, h.synced, (fun r' hr' => by cases hr'), h.mets⟩
  | verifyRecovered part buf written hrec hp =>
    exact (h.reopens (reopens_applyVerdict h.ok part _) hrec).saveMet _
  | reset written hrec =>
    exact (h.reopens (s := { d.store with pf := _ }) (reopens_resetAllGaps h.ok) hrec).saveMet _
  | save written hrec => exact h.saveMet _

end

/-! ## Opened downloads -/

/-- A store the program starts a download with. -/
inductive Opened : PartStore → Prop where
  | created (hash : Hash16) (size : UInt64) (name : Bytes) :
    Opened (PartStore.create hash size name)
  | opened {d : MetDir} {part : Option Bytes} {s : PartStore} : openStore d part = .ok s → Opened s

theorem metSize_lt {tags : List Tag} {size : Nat} (h : metSize tags = some size) :
    size < 2 ^ 64 := by
  obtain ⟨t, -, ht⟩ := Option.bind_eq_some_iff.mp h
  unfold tagU64 at ht
  split at ht
  · rename_i x _
    have := x.toNat_lt
    have := Option.some.inj ht
    omega
  · rename_i x _
    have := x.toNat_lt
    have := Option.some.inj ht
    omega
  · cases ht

theorem gapsOk_of_ofPartMet {met : PartMet} {s : PartStore} (h : ofPartMet met = .ok s) :
    s.GapsOk := by
  unfold ofPartMet at h
  split at h
  · cases h
  · rename_i size hsize
    cases h
    have hn := PartFile.ok_normalize
      { hash := met.fileHash, size, partHashes := [], gaps := gaps met,
        corrupted := metCorrupted met.tags }
    exact ⟨⟨hn.tidy, hn.stop_le⟩, metSize_lt hsize⟩

/-- Whatever the part.met held, the gap list is in order after `open`. -/
theorem Opened.gapsOk {s : PartStore} (h : Opened s) : s.GapsOk := by
  cases h with
  | created hash size name => exact (PartStore.ok_create hash size name).toGapsOk
  | @opened d part _ h =>
    unfold openStore at h
    cases hsel : selectMet d with
    | error e => rw [hsel] at h; cases h
    | ok met =>
      rw [hsel] at h
      change (ofPartMet met >>= _) = _ at h
      cases hof : ofPartMet met with
      | error e => rw [hof] at h; cases h
      | ok t =>
        rw [hof] at h
        cases part with
        | none => cases h
        | some file => cases h; exact gapsOk_of_ofPartMet hof

theorem ReachableFrom.inv {md4 : Bytes → Hash16} {sha1 : Bytes → Hash20}
    {verified : LeafSpan → Prop} {s : PartStore} {file : Bytes} (hs : Opened s) {d : Download}
    (h : ReachableFrom md4 sha1 verified s file d) :
    d.Inv sha1 verified {b | b < s.pf.size ∧ b ∉ cover s.pf.gaps} s.pf.size := by
  induction h with
  | opened =>
    exact
      { size_lt := hs.gapsOk.size_lt
        ok := hs.gapsOk.pf
        size_eq := rfl
        backed := fun b hlt hnot => Or.inl ⟨hlt, hnot⟩
        synced := fun c hc => absurd hc List.not_mem_nil
        recovery := fun r hr => by cases hr
        mets := fun m hm => absurd hm List.not_mem_nil }
  | step _ hstep ih => exact Download.inv_step ih hstep

theorem getElem?_writeAllAt (file : Bytes) (start : Nat) (data : Bytes) (k : Nat) :
    (writeAllAt file start data)[k]? =
      if k < start then (if k < file.length then file[k]? else some 0)
      else if k < start + data.length then data[k - start]? else file[k]? := by
  have hlen : ((file ++ List.replicate (start - file.length) 0).take start).length = start := by
    rw [List.length_take, List.length_append, List.length_replicate]
    omega
  unfold writeAllAt
  rw [List.append_assoc]
  split
  · rename_i hk
    rw [List.getElem?_append_left (by omega), List.getElem?_take_of_lt hk]
    split
    · rename_i hf
      rw [List.getElem?_append_left hf]
    · rename_i hf
      rw [List.getElem?_append_right (by omega), List.getElem?_replicate_of_lt (by omega)]
  · rename_i hk
    rw [List.getElem?_append_right (by omega), hlen]
    split
    · rename_i hd
      rw [List.getElem?_append_left (by omega)]
    · rename_i hd
      rw [List.getElem?_append_right (by omega), List.getElem?_drop]
      congr 1
      omega

def Commit.Writing (c : Commit) : Prop := ∃ n, c.state = .writing n

/-- One write at a time, and what it has written so far is on disk. -/
structure Download.Landed (d : Download) : Prop where
  one_writer : d.commits.Pairwise fun a b => ¬ (a.Writing ∧ b.Writing)
  landed : ∀ c ∈ d.commits, ∀ n, c.state = .writing n →
    n ≤ c.data.length ∧ ∀ i < n, d.file[c.start + i]? = c.data[i]?

theorem Download.Landed.congr {d d' : Download} (h : d.Landed) (hc : d'.commits = d.commits)
    (hf : d'.file = d.file) : d'.Landed :=
  ⟨hc ▸ h.one_writer, fun c hc' n hn => hf ▸ h.landed c (hc ▸ hc') n hn⟩

theorem commits_saveMet (d : Download) (written : Bool) :
    (d.saveMet written).commits = d.commits := by
  unfold Download.saveMet
  split <;> rfl

theorem file_saveMet (d : Download) (written : Bool) : (d.saveMet written).file = d.file := by
  unfold Download.saveMet
  split <;> rfl

/-- A commit moves on; if it is then writing, it was before or nobody was. -/
theorem Download.Landed.moveCommit {d : Download} (h : d.Landed) {cs ds : List Commit}
    {c c' : Commit} (hc : d.commits = cs ++ c :: ds)
    (hw : c'.Writing → c.Writing ∨ ∀ e ∈ d.commits, ¬ e.Writing)
    (hl : ∀ n, c'.state = .writing n →
      n ≤ c'.data.length ∧ ∀ i < n, d.file[c'.start + i]? = c'.data[i]?) :
    ({ d with commits := cs ++ c' :: ds } : Download).Landed := by
  have hone := h.one_writer
  rw [hc, List.pairwise_append, List.pairwise_cons] at hone
  obtain ⟨hcs, ⟨hcds, hds⟩, hcross⟩ := hone
  have hleft : ∀ e ∈ cs, e ∈ d.commits := fun e he => hc ▸ List.mem_append_left _ he
  have hright : ∀ e ∈ ds, e ∈ d.commits :=
    fun e he => hc ▸ List.mem_append_right _ (List.mem_cons_of_mem _ he)
  refine ⟨?_, ?_⟩
  · show (cs ++ c' :: ds).Pairwise _
    rw [List.pairwise_append, List.pairwise_cons]
    refine ⟨hcs, ⟨fun e he hh => ?_, hds⟩, fun a ha b hb hh => ?_⟩
    · rcases hw hh.1 with hcw | hno
      · exact hcds e he ⟨hcw, hh.2⟩
      · exact hno e (hright e he) hh.2
    · rcases List.mem_cons.mp hb with rfl | hb
      · rcases hw hh.2 with hcw | hno
        · exact hcross a ha c (List.mem_cons_self ..) ⟨hh.1, hcw⟩
        · exact hno a (hleft a ha) hh.1
      · exact hcross a ha b (List.mem_cons_of_mem _ hb) hh
  · intro e he n hn
    rcases List.mem_append.mp he with he | he
    · exact h.landed e (hleft e he) n hn
    · rcases List.mem_cons.mp he with rfl | he
      · exact hl n hn
      · exact h.landed e (hright e he) n hn

/-- More bytes of the one running write land. -/
theorem Download.Landed.land {d : Download} (h : d.Landed) {cs ds : List Commit} {c : Commit}
    {done n : Nat} (hc : d.commits = cs ++ c :: ds) (hs : c.state = .writing done)
    (hn : done + n ≤ c.data.length) :
    ({ d with
      file := writeAllAt d.file (c.start + done) ((c.data.drop done).take n)
      commits := cs ++ { c with state := .writing (done + n) } :: ds } : Download).Landed := by
  have hone := h.one_writer
  rw [hc, List.pairwise_append, List.pairwise_cons] at hone
  obtain ⟨hcs, ⟨hcds, hds⟩, hcross⟩ := hone
  have hcw : c.Writing := ⟨done, hs⟩
  have hmem : c ∈ d.commits := hc ▸ List.mem_append_right _ (List.mem_cons_self ..)
  obtain ⟨-, hold⟩ := h.landed c hmem done hs
  have hnew : ∀ i < done + n, (writeAllAt d.file (c.start + done)
      ((c.data.drop done).take n))[c.start + i]? = c.data[i]? := by
    intro i hi
    have hlen : ((c.data.drop done).take n).length = n := by
      rw [List.length_take, List.length_drop]
      omega
    rw [getElem?_writeAllAt, hlen]
    by_cases hid : i < done
    · have hio := hold i hid
      have hsome : c.data[i]? = some c.data[i] := List.getElem?_eq_getElem (by omega)
      have hfile : c.start + i < d.file.length := by
        rw [hsome] at hio
        exact (List.getElem?_eq_some_iff.mp hio).1
      rw [if_pos (by omega), if_pos hfile, hio]
    · rw [if_neg (by omega), if_pos (by omega), List.getElem?_take_of_lt (by omega),
        List.getElem?_drop]
      congr 1
      omega
  refine ⟨?_, ?_⟩
  · show (cs ++ { c with state := .writing (done + n) } :: ds).Pairwise _
    rw [List.pairwise_append, List.pairwise_cons]
    refine ⟨hcs, ⟨fun e he hh => hcds e he ⟨hcw, hh.2⟩, hds⟩, fun a ha b hb hh => ?_⟩
    rcases List.mem_cons.mp hb with rfl | hb
    · exact hcross a ha c (List.mem_cons_self ..) ⟨hh.1, hcw⟩
    · exact hcross a ha b (List.mem_cons_of_mem _ hb) hh
  · intro e he k hk
    -- nobody else is writing
    rcases List.mem_append.mp he with he | he
    · exact absurd ⟨⟨k, hk⟩, hcw⟩ (hcross e he c (List.mem_cons_self ..))
    · rcases List.mem_cons.mp he with rfl | he
      · cases hk
        exact ⟨hn, hnew⟩
      · exact absurd ⟨hcw, ⟨k, hk⟩⟩ (hcds e he)

theorem Download.landed_step {md4 : Bytes → Hash16} {sha1 : Bytes → Hash20}
    {verified : LeafSpan → Prop} {d d' : Download} (h : d.Landed)
    (hstep : Step md4 sha1 verified d d') : d'.Landed := by
  have hnot : ∀ {c' : Commit}, (∀ n, c'.state ≠ .writing n) → ∀ {P : Prop}, c'.Writing → P := by
    intro c' hne P hw
    obtain ⟨n, hn⟩ := hw
    exact absurd hn (hne n)
  cases hstep with
  | detach start data hrec hne =>
    refine ⟨List.pairwise_cons.mpr ⟨fun e _ hh => ?_, h.one_writer⟩,
      List.forall_mem_cons.mpr ⟨(fun n hn => by cases hn), h.landed⟩⟩
    obtain ⟨n, hn⟩ := hh.1
    cases hn
  | refuse hc _ _ | writeFails hc _ | syncOk hc _ =>
    refine Download.Landed.congr (h.moveCommit hc ?_ ?_) rfl rfl
    · exact hnot fun n hn => by cases hn
    · exact fun n hn => by cases hn
  | lockWriter hc hs hle hfree =>
    refine h.moveCommit hc (fun _ => Or.inr fun e he hw => ?_) (fun n hn => ?_)
    · obtain ⟨n, hn⟩ := hw
      exact hfree e he n hn
    · cases hn
      exact ⟨Nat.zero_le _, fun i hi => absurd hi (Nat.not_lt_zero i)⟩
  | land n hc hs hn => exact h.land hc hs hn
  | @drop cs ds c hc =>
    have hmem : c ∈ d.commits := hc ▸ List.mem_append_right _ (List.mem_cons_self ..)
    exact h.moveCommit hc (fun hw => Or.inl hw) (h.landed c hmem)
  | @close cs ds c due hrec hc hs hd =>
    have hsub : (cs ++ ds).Sublist d.commits := by
      rw [hc]
      exact (List.Sublist.refl cs).append (List.sublist_cons_self c ds)
    refine Download.Landed.congr (d := { d with commits := cs ++ ds }) ?_ (commits_saveMet ..)
      (file_saveMet ..)
    exact ⟨h.one_writer.sublist hsub, fun e he => h.landed e (hsub.subset he)⟩
  | verifyReady | localize | applyRecovery | verifyRecovered | reset | save =>
    exact h.congr (commits_saveMet ..) (file_saveMet ..)
  | recover | readBlock | hashBlock | abandon => exact h.congr rfl rfl

/-- In every interleaving at most one block write runs, and the bytes it has put down are
    what the file holds there: when a sync is due, the whole block. -/
theorem ReachableFrom.landed {md4 : Bytes → Hash16} {sha1 : Bytes → Hash20}
    {verified : LeafSpan → Prop} {s : PartStore} {file : Bytes} {d : Download}
    (h : ReachableFrom md4 sha1 verified s file d) : d.Landed := by
  induction h with
  | opened => exact ⟨List.Pairwise.nil, fun c hc => absurd hc List.not_mem_nil⟩
  | step _ hstep ih => exact Download.landed_step ih hstep

end PadMule.Engine
