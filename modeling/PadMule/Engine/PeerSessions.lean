import PadMule.Engine.Commit
import PadMule.Engine.NextBlocks
import PadMule.Engine.ReceiverRuns
import PadMule.Engine.SecureIdent
import PadMule.Lib.Leases

/-
  `mule-engine/src/multi_source.rs`: the peer sessions of one `Download`.

  A session runs `run_peer`'s block loop: it takes blocks, asks the peer for them, feeds
  what arrives to its `BlockReceiver`, commits each write, gives completed blocks back and
  takes new ones. A `Move` is one stretch of that loop between two awaits; `leave` is every
  way a session can end (returned, failed, or its future dropped at any await), and leaves
  the blocking write of a commit running among `dl.commits`. Everything else that happens
  to the download, verification above all, is a step of `Engine.Commit` that touches
  neither the data file nor the writes in flight.

  Reservations are a ledger: `ledger_step` says what a move does to it. From there
  `reservations_owned` needs no invariant of the receiver, and `held_blocks_reserved` is
  the condition under which the reserved list covers what the sessions hold.
-/

namespace PadMule.Engine

open Spans Files PadMule.Proto Leases

/-- What the block loop handles before it asks the receiver. -/
def auxOpcodes : List UInt8 :=
  [OP_SECIDENTSTATE, OP_PUBLICKEY, OP_SIGNATURE, OP_FILEDESC, OP_AICHFILEHASHANS, OP_AICHANSWER,
    OP_OUTOFPARTREQS]

/-- True if the peer has part `i` (or the whole file). -/
def FileStatus.hasPart (status : FileStatus) (i : Nat) : Bool :=
  status.complete || status.parts.getD i false

variable {Z : Inflate.Inflater}

/-! ## Sessions -/

/-- Where a session stands in `run_peer`. -/
inductive SessionPhase (Z : Inflate.Inflater) where
  | outside -- it has no block request out: waiting for a slot, or about to take blocks
  | fetching (rx : BlockReceiver Z) (noMoreBlocks : Bool)
  /-- the writes of one packet; the first one may have its writer detached -/
  | committing (rx : BlockReceiver Z) (noMoreBlocks : Bool) (writes : List BlockWrite)
      (commit : Option Commit)
  | toppingUp (rx : BlockReceiver Z) (wanted : Nat)
  | ended

/-- A session and its `HeldBlocks`. -/
structure PeerSession (Z : Inflate.Inflater) where
  status : FileStatus
  held : List Block
  phase : SessionPhase Z

namespace PeerSession

/-- The commit whose writer is detached. -/
def commit? (s : PeerSession Z) : Option Commit :=
  match s.phase with
  | .committing _ _ _ c => c
  | _ => none

def Live (s : PeerSession Z) : Prop := s.phase ≠ .ended

end PeerSession

/-- One step of the blocking write behind a commit. -/
inductive WriteMove where
  | refuse
  | lock
  | land (n : Nat)
  | sync
  | fail

namespace Download

/-- `write_and_sync` moves on; `busy` tells whether a write to this store holds the lock. -/
def advance (d : Download) (busy : Bool) (c : Commit) : WriteMove → Option (Download × Commit)
  | .refuse =>
    if c.state = .waiting ∧ d.store.pf.size < c.start + c.data.length then
      some (d, { c with state := .failed })
    else none
  | .lock =>
    if c.state = .waiting ∧ c.start + c.data.length ≤ d.store.pf.size ∧ busy = false then
      some (d, { c with state := .writing 0 })
    else none
  | .land n =>
    match c.state with
    | .writing done =>
      if done + n ≤ c.data.length then
        some ({ d with file := writeAllAt d.file (c.start + done) ((c.data.drop done).take n) },
          { c with state := .writing (done + n) })
      else none
    | _ => none
  | .sync =>
    if c.state = .writing c.data.length then
      some ({ d with history :=
        { d.history with written := (c.start, c.data.length) :: d.history.written } },
        { c with state := .synced })
    else none
  | .fail =>
    match c.state with
    | .writing _ => some (d, { c with state := .failed })
    | _ => none

end Download

/-- A download with its peer sessions. `dl.commits` are the writes that sessions left
    running. -/
structure Swarm (Z : Inflate.Inflater) where
  dl : Download
  reserved : List Block
  availability : List Nat
  sessions : List (PeerSession Z)

/-- The flags of the download. `take_blocks` reads them before it waits for the lock, so a
    move that takes blocks carries the values it read. -/
structure Flags where
  stopped : Bool -- cancelled or paused
  preview : Bool

/-- One stretch of one session. -/
inductive Move where
  | connect (status : FileStatus)
  | ask (i : Nat) (flags : Flags)
  | receive (i : Nat) (opcode : UInt8) (payload : Bytes)
  | batchDone (i : Nat)
  | revoked (i : Nat)
  | detach (i : Nat)
  | write (i : Nat) (m : WriteMove)
  | close (i : Nat) (due : Bool)
  | settle (i : Nat)
  | topUp (i : Nat) (flags : Flags)
  | leave (i : Nat)
  | straggle (k : Nat) (m : WriteMove)
  | setHashset (hashes : List Hash16)

namespace Swarm

/-- A download just opened, with no session yet. -/
def opened (Z : Inflate.Inflater) (store : PartStore) (file : Bytes) : Swarm Z where
  dl := Download.opened store file
  reserved := []
  availability := List.replicate (dataPartCount store.pf.size) 0
  sessions := []

def pf (w : Swarm Z) : PartFile := w.dl.store.pf

/-- `take_blocks`, and whether endgame served it. -/
def takeBlocks (w : Swarm Z) (flags : Flags) (status : FileStatus) (max : Nat) :
    List Block × Bool :=
  if flags.stopped then ([], false)
  else
    let rarity := fun p => w.availability.getD p 0
    let blocks := w.pf.nextBlocks status.hasPart w.reserved max rarity false flags.preview
    if blocks = [] ∧ 0 < w.pf.missing ∧ w.pf.missing ≤ ENDGAME_LIMIT then
      (w.pf.nextBlocks status.hasPart w.reserved max rarity true flags.preview, true)
    else (blocks, false)

/-- The blocks a session takes go into the reserved list and into its own. -/
def serve (w : Swarm Z) (i : Nat) (blocks : List Block) (s : PeerSession Z) : Swarm Z :=
  { w with
    reserved := w.reserved ++ blocks
    sessions := w.sessions.set i { s with held := s.held ++ blocks } }

/-- `HeldBlocks::release`: out of the reserved list and of its own, by value. -/
def release (w : Swarm Z) (i : Nat) (done : List Block) (s : PeerSession Z) : Swarm Z :=
  { w with
    reserved := w.reserved.filter (· ∉ done)
    sessions := w.sessions.set i { s with held := s.held.filter (· ∉ done) } }

def setSession (w : Swarm Z) (i : Nat) (s : PeerSession Z) : Swarm Z :=
  { w with sessions := w.sessions.set i s }

/-- Some write to the data file holds the write lock. -/
def writing (w : Swarm Z) : Bool :=
  (w.sessions.filterMap PeerSession.commit? ++ w.dl.commits).any fun c =>
    match c.state with
    | .writing _ => true
    | _ => false

/-- The outer loop of `run_peer`: take blocks, ask for them, build the receiver. -/
def ask (w : Swarm Z) (i : Nat) (flags : Flags) (s : PeerSession Z) : Option (Swarm Z) :=
  let blocks := (w.takeBlocks flags s.status STANDARD_BLOCKS_REQUEST).1
  if w.dl.recovery.isSome ∨ blocks = [] then none
  else (BlockReceiver.new Z w.pf.hash w.pf.size blocks).map fun rx =>
    w.serve i blocks { s with phase := .fetching rx false }

/-- A packet for the receiver. An error ends the session. -/
def receive (w : Swarm Z) (i : Nat) (opcode : UInt8) (payload : Bytes) (s : PeerSession Z)
    (rx : BlockReceiver Z) (noMoreBlocks : Bool) : Option (Swarm Z) :=
  if rx.isDone ∨ opcode ∈ auxOpcodes then none
  else
    match rx.accept opcode payload with
    | some (.ok writes, rx) =>
      some (w.setSession i { s with phase := .committing rx noMoreBlocks writes none })
    | _ => none

/-- `commit` detaches a writer; an empty write is done at once. -/
def detach (w : Swarm Z) (i : Nat) (s : PeerSession Z) (rx : BlockReceiver Z)
    (noMoreBlocks : Bool) (b : BlockWrite) (writes : List BlockWrite) : Option (Swarm Z) :=
  if b.data = [] then
    some (w.setSession i { s with phase := .committing rx noMoreBlocks writes none })
  else if w.dl.recovery.isSome then none
  else
    some (w.setSession i { s with
      phase := .committing rx noMoreBlocks (b :: writes) (some ⟨b.offset, b.data, .waiting, false⟩) })

/-- The write is synced: `commit` closes the gap and saves if a save is due. -/
def close (w : Swarm Z) (i : Nat) (due : Bool) (s : PeerSession Z) (rx : BlockReceiver Z)
    (noMoreBlocks : Bool) (writes : List BlockWrite) (c : Commit) : Option (Swarm Z) :=
  if c.state = .synced ∧ w.dl.recovery = none then
    some { w.setSession i { s with phase := .committing rx noMoreBlocks writes none } with
      dl := (w.dl.setPf (w.pf.fillGap c.start (c.start + c.data.length))).saveMet due }
  else none

/-- The packet's writes are committed: blocks that closed are given back. -/
def settle (w : Swarm Z) (i : Nat) (s : PeerSession Z) (rx : BlockReceiver Z)
    (noMoreBlocks : Bool) : Swarm Z :=
  let done := rx.takeCompleted.1
  let rx' := rx.takeCompleted.2
  if done = [] then w.setSession i { s with phase := .fetching rx noMoreBlocks }
  else if noMoreBlocks then w.release i done { s with phase := .fetching rx' true }
  else w.release i done { s with phase := .toppingUp rx' done.length }

/-- Blocks in place of the closed ones. -/
def topUp (w : Swarm Z) (i : Nat) (flags : Flags) (s : PeerSession Z) (rx : BlockReceiver Z)
    (wanted : Nat) : Option (Swarm Z) :=
  let more := (w.takeBlocks flags s.status wanted).1
  if w.dl.recovery.isSome then none
  else if more = [] then some (w.setSession i { s with phase := .fetching rx true })
  else some (w.serve i more { s with phase := .fetching (rx.addBlocks more) false })

/-- The session's future is gone; a write it had detached goes on. -/
def leave (w : Swarm Z) (i : Nat) (s : PeerSession Z) : Swarm Z :=
  { w.release i s.held { s with phase := .ended } with
    dl := { w.dl with
      commits := w.dl.commits ++ s.commit?.toList.map fun c => { c with dropped := true } } }

/-- What session `i` does next. -/
def sessionMove (w : Swarm Z) (i : Nat) (s : PeerSession Z) : Move → Option (Swarm Z)
  | .ask _ flags =>
    match s.phase with
    | .outside => w.ask i flags s
    | _ => none
  | .receive _ opcode payload =>
    match s.phase with
    | .fetching rx noMoreBlocks => w.receive i opcode payload s rx noMoreBlocks
    | _ => none
  | .batchDone _ =>
    match s.phase with
    | .fetching rx _ => if rx.isDone then some (w.setSession i { s with phase := .outside }) else none
    | _ => none
  | .revoked _ =>
    match s.phase with
    | .fetching rx _ =>
      if rx.isDone then none else some (w.release i s.held { s with phase := .outside })
    | _ => none
  | .detach _ =>
    match s.phase with
    | .committing rx noMoreBlocks (b :: writes) none => w.detach i s rx noMoreBlocks b writes
    | _ => none
  | .write _ m =>
    match s.phase with
    | .committing rx noMoreBlocks writes (some c) =>
      (w.dl.advance w.writing c m).map fun r =>
        { w.setSession i { s with phase := .committing rx noMoreBlocks writes (some r.2) } with
          dl := r.1 }
    | _ => none
  | .close _ due =>
    match s.phase with
    | .committing rx noMoreBlocks (_ :: writes) (some c) => w.close i due s rx noMoreBlocks writes c
    | _ => none
  | .settle _ =>
    match s.phase with
    | .committing rx noMoreBlocks [] none => some (w.settle i s rx noMoreBlocks)
    | _ => none
  | .topUp _ flags =>
    match s.phase with
    | .toppingUp rx wanted => w.topUp i flags s rx wanted
    | _ => none
  | .leave _ =>
    match s.phase with
    | .ended => none
    | _ => some (w.leave i s)
  | _ => none

/-- The session a move belongs to. -/
def mover : Move → Option Nat
  | .ask i _ | .receive i _ _ | .batchDone i | .revoked i | .detach i | .write i _ | .close i _
  | .settle i | .topUp i _ | .leave i => some i
  | _ => none

/-- `note_status`: the peer's parts count towards availability. -/
def noteStatus (w : Swarm Z) (status : FileStatus) : List Nat :=
  w.availability.mapIdx fun p n => if status.hasPart p then n + 1 else n

/-- A peer has reported its parts. -/
def connect (w : Swarm Z) (status : FileStatus) : Swarm Z :=
  { w with
    availability := w.noteStatus status
    sessions := w.sessions ++ [⟨status, [], .outside⟩] }

def move (w : Swarm Z) (m : Move) : Option (Swarm Z) :=
  match mover m with
  | some i => (w.sessions[i]?).bind fun s => w.sessionMove i s m
  | none =>
    match m with
    | .connect status =>
      if w.dl.recovery.isSome then none else some (w.connect status)
    | .straggle k m =>
      (w.dl.commits[k]?).bind fun c => (w.dl.advance w.writing c m).map fun r =>
        { w with dl := { r.1 with commits := r.1.commits.set k r.2 } }
    | .setHashset hashes =>
      if w.dl.recovery.isSome then none
      else some { w with dl := w.dl.setPf { w.pf with partHashes := hashes } }
    | _ => none

def moves (w : Swarm Z) : List Move → Option (Swarm Z)
  | [] => some w
  | m :: ms => (w.move m).bind fun w' => w'.moves ms

/-- What happens in a step: a move, or the download becomes `dl`. -/
inductive Label where
  | move (m : Move)
  | verify (dl : Download)

section

variable (md4 : Bytes → Hash16) (sha1 : Bytes → Hash20) (verified : LeafSpan → Prop)

/-- Everything but the block loops is a step of the download that leaves its data file and
    the writes in flight alone. -/
inductive Step : Swarm Z → Label → Swarm Z → Prop where
  | move {w w' : Swarm Z} (m : Move) : w.move m = some w' → Step w (.move m) w'
  | verify {w : Swarm Z} {dl : Download} :
    PadMule.Engine.Step md4 sha1 verified w.dl dl → dl.commits = w.dl.commits →
      dl.file = w.dl.file → Step w (.verify dl) { w with dl }

/-- The states reached from `w₀` by steps that all meet `ok`. -/
inductive RunOf (ok : Swarm Z → Label → Prop) (w₀ : Swarm Z) : Swarm Z → Prop where
  | start : RunOf ok w₀ w₀
  | step {w w' : Swarm Z} {l : Label} : RunOf ok w₀ w → Step md4 sha1 verified w l w' → ok w l →
      RunOf ok w₀ w'

end

/-! ## What a move can do -/

/-- Everything a move can do. -/
inductive Moved (w : Swarm Z) : Move → Swarm Z → Prop where
  | connect (status : FileStatus) (hfree : w.dl.recovery = none) :
    Moved w (.connect status) (w.connect status)
  | ask {i : Nat} {s : PeerSession Z} {rx : BlockReceiver Z} (flags : Flags)
      (hi : w.sessions[i]? = some s) (hphase : s.phase = .outside) (hfree : w.dl.recovery = none)
      (hnew : BlockReceiver.new Z w.pf.hash w.pf.size
        (w.takeBlocks flags s.status STANDARD_BLOCKS_REQUEST).1 = some rx) :
    Moved w (.ask i flags) (w.serve i (w.takeBlocks flags s.status STANDARD_BLOCKS_REQUEST).1
      { s with phase := .fetching rx false })
  | receive {i : Nat} {s : PeerSession Z} {rx rx' : BlockReceiver Z} {noMoreBlocks : Bool}
      {opcode : UInt8} {payload : Bytes} {writes : List BlockWrite}
      (hi : w.sessions[i]? = some s) (hphase : s.phase = .fetching rx noMoreBlocks)
      (haccept : rx.accept opcode payload = some (.ok writes, rx')) :
    Moved w (.receive i opcode payload)
      (w.setSession i { s with phase := .committing rx' noMoreBlocks writes none })
  | batchDone {i : Nat} {s : PeerSession Z} {rx : BlockReceiver Z} {noMoreBlocks : Bool}
      (hi : w.sessions[i]? = some s) (hphase : s.phase = .fetching rx noMoreBlocks)
      (hdone : rx.isDone = true) :
    Moved w (.batchDone i) (w.setSession i { s with phase := .outside })
  | revoked {i : Nat} {s : PeerSession Z} {rx : BlockReceiver Z} {noMoreBlocks : Bool}
      (hi : w.sessions[i]? = some s) (hphase : s.phase = .fetching rx noMoreBlocks) :
    Moved w (.revoked i) (w.release i s.held { s with phase := .outside })
  | skip {i : Nat} {s : PeerSession Z} {rx : BlockReceiver Z} {noMoreBlocks : Bool}
      {b : BlockWrite} {writes : List BlockWrite} (hi : w.sessions[i]? = some s)
      (hphase : s.phase = .committing rx noMoreBlocks (b :: writes) none) (hempty : b.data = []) :
    Moved w (.detach i) (w.setSession i { s with phase := .committing rx noMoreBlocks writes none })
  | detach {i : Nat} {s : PeerSession Z} {rx : BlockReceiver Z} {noMoreBlocks : Bool}
      {b : BlockWrite} {writes : List BlockWrite} (hi : w.sessions[i]? = some s)
      (hphase : s.phase = .committing rx noMoreBlocks (b :: writes) none)
      (hfree : w.dl.recovery = none) :
    Moved w (.detach i) (w.setSession i { s with
      phase := .committing rx noMoreBlocks (b :: writes) (some ⟨b.offset, b.data, .waiting, false⟩) })
  | write {i : Nat} {s : PeerSession Z} {rx : BlockReceiver Z} {noMoreBlocks : Bool}
      {writes : List BlockWrite} {c c' : Commit} {m : WriteMove} {dl : Download}
      (hi : w.sessions[i]? = some s)
      (hphase : s.phase = .committing rx noMoreBlocks writes (some c))
      (hadvance : w.dl.advance w.writing c m = some (dl, c')) :
    Moved w (.write i m) { w.setSession i { s with
      phase := .committing rx noMoreBlocks writes (some c') } with dl }
  | close {i : Nat} {s : PeerSession Z} {rx : BlockReceiver Z} {noMoreBlocks : Bool}
      {b : BlockWrite} {writes : List BlockWrite} {c : Commit} (due : Bool)
      (hi : w.sessions[i]? = some s)
      (hphase : s.phase = .committing rx noMoreBlocks (b :: writes) (some c))
      (hsynced : c.state = .synced) (hfree : w.dl.recovery = none) :
    Moved w (.close i due) { w.setSession i { s with
        phase := .committing rx noMoreBlocks writes none } with
      dl := (w.dl.setPf (w.pf.fillGap c.start (c.start + c.data.length))).saveMet due }
  | unsettled {i : Nat} {s : PeerSession Z} {rx : BlockReceiver Z} {noMoreBlocks : Bool}
      (hi : w.sessions[i]? = some s) (hphase : s.phase = .committing rx noMoreBlocks [] none)
      (hdone : rx.completed = []) :
    Moved w (.settle i) (w.setSession i { s with phase := .fetching rx noMoreBlocks })
  | settle {i : Nat} {s : PeerSession Z} {rx : BlockReceiver Z} {noMoreBlocks : Bool}
      {phase : SessionPhase Z} (hi : w.sessions[i]? = some s)
      (hphase : s.phase = .committing rx noMoreBlocks [] none)
      (hnext : phase = .fetching rx.takeCompleted.2 true ∨
        phase = .toppingUp rx.takeCompleted.2 rx.completed.length) :
    Moved w (.settle i) (w.release i rx.completed { s with phase })
  | drained {i : Nat} {s : PeerSession Z} {rx : BlockReceiver Z} {wanted : Nat} (flags : Flags)
      (hi : w.sessions[i]? = some s) (hphase : s.phase = .toppingUp rx wanted)
      (hfree : w.dl.recovery = none) :
    Moved w (.topUp i flags) (w.setSession i { s with phase := .fetching rx true })
  | topUp {i : Nat} {s : PeerSession Z} {rx : BlockReceiver Z} {wanted : Nat} (flags : Flags)
      (hi : w.sessions[i]? = some s) (hphase : s.phase = .toppingUp rx wanted)
      (hfree : w.dl.recovery = none) :
    Moved w (.topUp i flags) (w.serve i (w.takeBlocks flags s.status wanted).1 { s with
      phase := .fetching (rx.addBlocks (w.takeBlocks flags s.status wanted).1) false })
  | leave {i : Nat} {s : PeerSession Z} (hi : w.sessions[i]? = some s) (hlive : s.phase ≠ .ended) :
    Moved w (.leave i) (w.leave i s)
  | straggle {k : Nat} {c c' : Commit} {m : WriteMove} {dl : Download}
      (hk : w.dl.commits[k]? = some c) (hadvance : w.dl.advance w.writing c m = some (dl, c')) :
    Moved w (.straggle k m) { w with dl := { dl with commits := dl.commits.set k c' } }
  | setHashset (hashes : List Hash16) (hfree : w.dl.recovery = none) :
    Moved w (.setHashset hashes) { w with dl := w.dl.setPf { w.pf with partHashes := hashes } }

theorem sessionMove_cases {w w' : Swarm Z} {m : Move} {i : Nat} {s : PeerSession Z}
    (hm : mover m = some i) (hi : w.sessions[i]? = some s) (h : w.sessionMove i s m = some w') :
    Moved w m w' := by
  cases m with
  | connect status => cases hm
  | straggle k m => cases hm
  | setHashset hashes => cases hm
  | ask j flags =>
    cases hm
    simp only [sessionMove] at h
    split at h
    · rename_i hphase
      simp only [ask] at h
      split_ifs at h with hfree
      obtain ⟨rx, hnew, rfl⟩ := Option.map_eq_some_iff.mp h
      rw [not_or, Option.not_isSome_iff_eq_none] at hfree
      exact .ask flags hi hphase hfree.1 hnew
    · cases h
  | receive j opcode payload =>
    cases hm
    simp only [sessionMove] at h
    split at h
    · rename_i rx noMoreBlocks hphase
      simp only [receive] at h
      split_ifs at h
      split at h
      · rename_i writes rx' haccept
        cases h
        exact .receive hi hphase haccept
      · cases h
    · cases h
  | batchDone j =>
    cases hm
    simp only [sessionMove] at h
    split at h
    · rename_i rx noMoreBlocks hphase
      split_ifs at h with hdone
      cases h
      exact .batchDone hi hphase hdone
    · cases h
  | revoked j =>
    cases hm
    simp only [sessionMove] at h
    split at h
    · rename_i rx noMoreBlocks hphase
      split_ifs at h
      cases h
      exact .revoked hi hphase
    · cases h
  | detach j =>
    cases hm
    simp only [sessionMove] at h
    split at h
    · rename_i rx noMoreBlocks b writes hphase
      simp only [detach] at h
      split_ifs at h with hempty hfree
      · cases h
        exact .skip hi hphase hempty
      · cases h
        exact .detach hi hphase (Option.not_isSome_iff_eq_none.mp hfree)
    · cases h
  | write j m =>
    cases hm
    simp only [sessionMove] at h
    split at h
    · rename_i rx noMoreBlocks writes c hphase
      obtain ⟨⟨dl, c'⟩, hadvance, rfl⟩ := Option.map_eq_some_iff.mp h
      exact .write hi hphase hadvance
    · cases h
  | close j due =>
    cases hm
    simp only [sessionMove] at h
    split at h
    · rename_i rx noMoreBlocks b writes c hphase
      simp only [close] at h
      split_ifs at h with hready
      cases h
      exact .close due hi hphase hready.1 hready.2
    · cases h
  | settle j =>
    cases hm
    simp only [sessionMove] at h
    split at h
    · rename_i rx noMoreBlocks hphase
      simp only [settle] at h
      split_ifs at h with hdone hdrain
      · cases h
        exact .unsettled hi hphase hdone
      · cases h
        exact .settle hi hphase (Or.inl rfl)
      · cases h
        exact .settle hi hphase (Or.inr rfl)
    · cases h
  | topUp j flags =>
    cases hm
    simp only [sessionMove] at h
    split at h
    · rename_i rx wanted hphase
      simp only [topUp] at h
      split_ifs at h with hfree hmore
      · cases h
        exact .drained flags hi hphase (Option.not_isSome_iff_eq_none.mp hfree)
      · cases h
        exact .topUp flags hi hphase (Option.not_isSome_iff_eq_none.mp hfree)
    · cases h
  | leave j =>
    cases hm
    simp only [sessionMove] at h
    split at h
    · cases h
    · rename_i hlive
      cases h
      exact .leave hi hlive

theorem move_cases {w w' : Swarm Z} {m : Move} (h : w.move m = some w') : Moved w m w' := by
  unfold move at h
  cases hm : mover m with
  | some i =>
    rw [hm] at h
    obtain ⟨s, hi, h⟩ := Option.bind_eq_some_iff.mp h
    exact sessionMove_cases hm hi h
  | none =>
    rw [hm] at h
    dsimp only at h
    split at h
    · rename_i status
      split_ifs at h with hfree
      cases h
      exact .connect status (Option.not_isSome_iff_eq_none.mp hfree)
    · rename_i k m
      obtain ⟨c, hk, h⟩ := Option.bind_eq_some_iff.mp h
      obtain ⟨⟨dl, c'⟩, hadvance, rfl⟩ := Option.map_eq_some_iff.mp h
      exact .straggle hk hadvance
    · rename_i hashes
      split_ifs at h with hfree
      cases h
      exact .setHashset hashes (Option.not_isSome_iff_eq_none.mp hfree)
    · cases h

/-! ## The ledger of the reservations -/

def ledger (w : Swarm Z) : Ledger Block := ⟨w.reserved, w.sessions.map PeerSession.held⟩

theorem held_ledger {w : Swarm Z} {i : Nat} {s : PeerSession Z} (hi : w.sessions[i]? = some s) :
    w.ledger.held[i]? = some s.held := by
  rw [ledger, List.getElem?_map, hi]
  rfl

/-- The ranges a move gives back, and the session that does. -/
def givesBack (w : Swarm Z) : Move → Option (Nat × List Block)
  | .settle i => (w.sessions[i]?).bind fun s =>
    match s.phase with
    | .committing rx _ [] none => some (i, rx.completed)
    | _ => none
  | .revoked i | .leave i => (w.sessions[i]?).map fun s => (i, s.held)
  | _ => none

/-- What a move asks `take_blocks` for, and the session that asks. -/
def asksFor (w : Swarm Z) : Move → Option (Nat × Flags × FileStatus × Nat)
  | .ask i flags => (w.sessions[i]?).map fun s => (i, flags, s.status, STANDARD_BLOCKS_REQUEST)
  | .topUp i flags => (w.sessions[i]?).bind fun s =>
    match s.phase with
    | .toppingUp _ wanted => some (i, flags, s.status, wanted)
    | _ => none
  | _ => none

theorem ledger_connect (w : Swarm Z) (status : FileStatus) :
    (w.connect status).ledger = w.ledger.join := by
  unfold ledger connect Ledger.join
  rw [List.map_append]
  rfl

theorem ledger_setPhase {w : Swarm Z} {i : Nat} {s : PeerSession Z} (hi : w.sessions[i]? = some s)
    (phase : SessionPhase Z) : (w.setSession i { s with phase }).ledger = w.ledger := by
  have hheld : (w.sessions.set i { s with phase }).map PeerSession.held =
      w.sessions.map PeerSession.held := Slots.map_set_of_eq hi rfl
  unfold ledger setSession
  rw [hheld]

theorem ledger_serve (w : Swarm Z) (i : Nat) (blocks : List Block) (s : PeerSession Z)
    (phase : SessionPhase Z) :
    (w.serve i blocks { s with phase }).ledger = w.ledger.grant i s.held blocks := by
  unfold ledger serve Ledger.grant
  rw [List.map_set]

theorem ledger_release (w : Swarm Z) (i : Nat) (done : List Block) (s : PeerSession Z)
    (phase : SessionPhase Z) :
    (w.release i done { s with phase }).ledger = w.ledger.giveBack i s.held done := by
  unfold ledger release Ledger.giveBack
  rw [List.map_set]

/-- What a move does to the ledger. -/
inductive Ledgers (w : Swarm Z) (m : Move) : Ledger Block → Prop where
  | keep : Ledgers w m w.ledger
  | join : Ledgers w m w.ledger.join
  | grant {i : Nat} {s : PeerSession Z} {flags : Flags} {max : Nat}
      (hi : w.sessions[i]? = some s) (hasks : w.asksFor m = some (i, flags, s.status, max)) :
    Ledgers w m (w.ledger.grant i s.held (w.takeBlocks flags s.status max).1)
  | giveBack {i : Nat} {s : PeerSession Z} {done : List Block} (hi : w.sessions[i]? = some s)
      (hgives : w.givesBack m = some (i, done)) :
    Ledgers w m (w.ledger.giveBack i s.held done)

theorem ledger_move {w w' : Swarm Z} {m : Move} (h : w.move m = some w') :
    Ledgers w m w'.ledger := by
  cases move_cases h with
  | connect status hfree =>
    rw [ledger_connect]
    exact .join
  | ask flags hi hphase hfree hnew =>
    rw [ledger_serve]
    exact .grant hi (by simp only [asksFor, hi, Option.map_some])
  | receive hi hphase haccept =>
    rw [ledger_setPhase hi]
    exact .keep
  | batchDone hi hphase hdone =>
    rw [ledger_setPhase hi]
    exact .keep
  | revoked hi hphase =>
    rw [ledger_release]
    exact .giveBack hi (by simp only [givesBack, hi, Option.map_some])
  | skip hi hphase hempty =>
    rw [ledger_setPhase hi]
    exact .keep
  | detach hi hphase hfree =>
    rw [ledger_setPhase hi]
    exact .keep
  | write hi hphase hadvance =>
    show Ledgers w _ (w.setSession _ _).ledger
    rw [ledger_setPhase hi]
    exact .keep
  | close due hi hphase hsynced hfree =>
    show Ledgers w _ (w.setSession _ _).ledger
    rw [ledger_setPhase hi]
    exact .keep
  | unsettled hi hphase hdone =>
    rw [ledger_setPhase hi]
    exact .keep
  | settle hi hphase hnext =>
    rw [ledger_release]
    exact .giveBack hi (by simp only [givesBack, hi, Option.bind_some, hphase])
  | drained flags hi hphase hfree =>
    rw [ledger_setPhase hi]
    exact .keep
  | topUp flags hi hphase hfree =>
    rw [ledger_serve]
    exact .grant hi (by simp only [asksFor, hi, Option.bind_some, hphase])
  | @leave i s hi hlive =>
    show Ledgers w _ (w.release i s.held { s with phase := .ended }).ledger
    rw [ledger_release]
    exact .giveBack hi (by simp only [givesBack, hi, Option.map_some])
  | straggle hk hadvance => exact .keep
  | setHashset hashes hfree => exact .keep

end Swarm

/-! ## What no step changes -/

/-- The gap list stays in order, and it stays the same file. -/
structure SameFile (pf pf' : PartFile) : Prop where
  ok : pf'.Ok
  size_eq : pf'.size = pf.size
  hash_eq : pf'.hash = pf.hash

theorem SameFile.refl {pf : PartFile} (h : pf.Ok) : SameFile pf pf := ⟨h, rfl, rfl⟩

theorem SameFile.trans {pf pf' pf'' : PartFile} (h : SameFile pf pf') (h' : SameFile pf' pf'') :
    SameFile pf pf'' :=
  ⟨h'.ok, h'.size_eq.trans h.size_eq, h'.hash_eq.trans h.hash_eq⟩

theorem sameFile_fillGap {pf : PartFile} (h : pf.Ok) (a b : Nat) : SameFile pf (pf.fillGap a b) :=
  ⟨h.fillGap a b, pf.size_fillGap a b, pf.hash_fillGap a b⟩

theorem sameFile_markCorrupts (ps : List Nat) {pf : PartFile} (h : pf.Ok) :
    SameFile pf (ps.foldl (fun pf p => pf.markCorrupt p) pf) := by
  induction ps generalizing pf with
  | nil => exact .refl h
  | cons p ps ih =>
    have hone : SameFile pf (pf.markCorrupt p) :=
      ⟨PartFile.ok_markCorrupt pf p, pf.size_markCorrupt p, pf.hash_markCorrupt p⟩
    exact hone.trans (ih hone.ok)

theorem sameFile_applyVerdict {s : PartStore} (h : s.pf.Ok) (p : Nat) (v : Option Bool) :
    SameFile s.pf (s.applyVerdict p v).pf :=
  ⟨(reopens_applyVerdict h p v).ok, (reopens_applyVerdict h p v).size_eq, s.hash_applyVerdict p v⟩

theorem sameFile_verifyReadyParts (md4 : Bytes → Hash16) (reads : Nat → Option Bytes)
    (ps : List Nat) {s : PartStore} (h : s.pf.Ok) :
    SameFile s.pf (verifyReadyParts md4 reads s ps).1.pf := by
  induction ps generalizing s with
  | nil => exact .refl h
  | cons p ps ih =>
    unfold verifyReadyParts
    split
    · cases reads p with
      | none => exact .refl h
      | some buf =>
        have hone := sameFile_applyVerdict h p (s.verifyHash md4 p buf)
        exact hone.trans (ih hone.ok)
    · exact ih h

theorem sameFile_applyResults (results : List (LeafSpan × Bool)) {pf : PartFile} (h : pf.Ok) :
    SameFile pf (applyResults pf results) := by
  unfold applyResults
  induction results generalizing pf with
  | nil => exact .refl h
  | cons r results ih =>
    rw [List.foldl_cons]
    cases r.2 with
    | true =>
      have hone := sameFile_fillGap h r.1.start (r.1.start + r.1.len)
      exact hone.trans (ih hone.ok)
    | false =>
      have hone : SameFile pf (pf.reopenRange r.1.start (r.1.start + r.1.len)) :=
        ⟨h.reopenRange _ _, pf.size_reopenRange _ _, pf.hash_reopenRange _ _⟩
      exact hone.trans (ih hone.ok)

theorem store_saveMet (d : Download) (written : Bool) : (d.saveMet written).store = d.store := by
  unfold Download.saveMet
  split <;> rfl

theorem SameFile.saveMet {pf : PartFile} {d : Download} (h : SameFile pf d.store.pf)
    (written : Bool) : SameFile pf (d.saveMet written).store.pf := by
  rw [store_saveMet]
  exact h

section

variable {md4 : Bytes → Hash16} {sha1 : Bytes → Hash20} {verified : LeafSpan → Prop}

theorem sameFile_verifyReady {d : Download} (h : d.store.pf.Ok) (reads : Nat → Option Bytes)
    (written : Bool) (ps : List Nat) :
    SameFile d.store.pf (({ d with store := (verifyReadyParts md4 reads d.store ps).1 } :
      Download).saveMet ((verifyReadyParts md4 reads d.store ps).2 && written)).store.pf :=
  SameFile.saveMet (d := { d with store := _ }) (sameFile_verifyReadyParts md4 reads ps h) _

/-- Every step of a download, whatever it does to the gap list. -/
theorem sameFile_step {d d' : Download} (h : d.store.pf.Ok) (hs : Step md4 sha1 verified d d') :
    SameFile d.store.pf d'.store.pf := by
  cases hs with
  | detach start data hrec hne => exact .refl h
  | refuse hcs hstate hpast => exact .refl h
  | lockWriter hcs hstate hin halone => exact .refl h
  | land n hcs hstate hin => exact .refl h
  | syncOk hcs hstate => exact .refl h
  | writeFails hcs hstate => exact .refl h
  | drop hcs => exact .refl h
  | close due hrec hcs hstate hlive =>
    exact SameFile.saveMet (d := Download.setPf _ _) (sameFile_fillGap h _ _) _
  | verifyReady reads written hrec =>
    exact sameFile_verifyReady h reads written _
  | localize bad written hrec hbad =>
    exact SameFile.saveMet (d := Download.setPf _ _) (sameFile_markCorrupts bad h) _
  | recover spans hrec hspans => exact .refl h
  | readBlock n hr htodo hlen hin => exact .refl h
  | hashBlock hr htodo hlen => exact .refl h
  | applyRecovery written hr htodo =>
    exact SameFile.saveMet (d := Download.setPf _ _) (sameFile_applyResults _ h) _
  | abandon hr => exact .refl h
  | verifyRecovered part buf written hrec hp =>
    exact SameFile.saveMet (d := { d with store := _ }) (sameFile_applyVerdict h part _) _
  | reset written hrec =>
    have hreset : SameFile d.store.pf (d.setPf d.store.pf.resetAllGaps).store.pf :=
      ⟨PartFile.ok_resetAllGaps _, rfl, rfl⟩
    exact hreset.saveMet _
  | save written hrec =>
    exact (SameFile.refl h).saveMet _

/-- What a blocking write leaves alone. -/
theorem advance_static {d d' : Download} {busy : Bool} {c c' : Commit} {m : WriteMove}
    (h : d.advance busy c m = some (d', c')) :
    d'.store = d.store ∧ d'.commits = d.commits ∧ d'.recovery = d.recovery ∧
      c'.start = c.start ∧ c'.data = c.data := by
  cases m with
  | refuse =>
    simp only [Download.advance] at h
    split_ifs at h
    cases h
    exact ⟨rfl, rfl, rfl, rfl, rfl⟩
  | lock =>
    simp only [Download.advance] at h
    split_ifs at h
    cases h
    exact ⟨rfl, rfl, rfl, rfl, rfl⟩
  | land n =>
    simp only [Download.advance] at h
    split at h
    · split_ifs at h
      cases h
      exact ⟨rfl, rfl, rfl, rfl, rfl⟩
    · cases h
  | sync =>
    simp only [Download.advance] at h
    split_ifs at h
    cases h
    exact ⟨rfl, rfl, rfl, rfl, rfl⟩
  | fail =>
    simp only [Download.advance] at h
    split at h
    · cases h
      exact ⟨rfl, rfl, rfl, rfl, rfl⟩
    · cases h

namespace Swarm

theorem sameFile {w w' : Swarm Z} {l : Label} (h : w.pf.Ok) (hs : Step md4 sha1 verified w l w') :
    SameFile w.pf w'.pf := by
  cases hs with
  | verify hstep hcommits hfile => exact sameFile_step h hstep
  | move m hm =>
    cases move_cases hm with
    | connect status hfree => exact .refl h
    | ask flags hi hphase hfree hnew => exact .refl h
    | receive hi hphase haccept => exact .refl h
    | batchDone hi hphase hdone => exact .refl h
    | revoked hi hphase => exact .refl h
    | skip hi hphase hempty => exact .refl h
    | detach hi hphase hfree => exact .refl h
    | @write i s rx noMoreBlocks writes c c' m dl hi hphase hadvance =>
      show SameFile w.pf dl.store.pf
      rw [(advance_static hadvance).1]
      exact .refl h
    | @close i s rx noMoreBlocks b writes c due hi hphase hsynced hfree =>
      exact SameFile.saveMet (d := Download.setPf _ _) (sameFile_fillGap h _ _) due
    | unsettled hi hphase hdone => exact .refl h
    | settle hi hphase hnext => exact .refl h
    | drained flags hi hphase hfree => exact .refl h
    | topUp flags hi hphase hfree => exact .refl h
    | leave hi hlive => exact .refl h
    | @straggle k c c' m dl hk hadvance =>
      show SameFile w.pf dl.store.pf
      rw [(advance_static hadvance).1]
      exact .refl h
    | setHashset hashes hfree => exact ⟨⟨h.tidy, h.stop_le⟩, rfl, rfl⟩

/-- In every run the gap list is in order, and it is the same file. -/
theorem RunOf.sameFile {ok : Swarm Z → Label → Prop} {w₀ w : Swarm Z} (h₀ : w₀.pf.Ok)
    (h : RunOf md4 sha1 verified ok w₀ w) : SameFile w₀.pf w.pf := by
  induction h with
  | start => exact .refl h₀
  | step _ hstep _ ih => exact ih.trans (Swarm.sameFile ih.ok hstep)

/-- An invariant of the steps that meet `ok` holds throughout. -/
theorem RunOf.induct {ok : Swarm Z → Label → Prop} {I : Swarm Z → Prop} {w₀ w : Swarm Z}
    (h₀ : I w₀)
    (hstep : ∀ w l w', I w → Step md4 sha1 verified w l w' → ok w l → I w')
    (h : RunOf md4 sha1 verified ok w₀ w) : I w := by
  induction h with
  | start => exact h₀
  | step _ hs hok ih => exact hstep _ _ _ ih hs hok

end Swarm

end

end PadMule.Engine
