import PadMule.Engine.PeerSessions
import PadMule.Engine.PeerWire
import PadMule.Engine.WholeBlocks

/-
  `mule-engine/src/multi_source.rs`: `run_peer`, one session of a download from its first packet
  to its last.

  The session asks what the peer has, gets the part hashes if it needs them, asks for a slot, and
  then keeps a window of three blocks asked for. What it does to the download are moves of its
  `Swarm`, of which it is the only session here; a commit's blocking write is done before the next
  packet is read, and does not fail. A turn reads one packet and writes what answers it. The
  download is neither paused nor cancelled, and asks nobody for recovery data, since no part of it
  is corrupt.
-/

namespace PadMule.Engine

open Spans Files PadMule.Proto BlockReceiver Inflate

/-! ## The session -/

inductive TransferError where
  | closed
  | protocol
  | noFile
  | badBlock
  | queued
deriving DecidableEq

/-- Where `run_peer` waits for a packet. -/
inductive RunPhase where
  | status
  | hashset
  | slot
  | blocks
  | returned (result : Except TransferError Nat)

structure RunArgs where
  bailOnQueue : Bool
  askSources : Bool
  peerAich : UInt8
  /-- Is there a park handle? -/
  mayPark : Bool
  /-- `SecIdentCtx::peer_supports` -/
  peerSupports : Bool

/-- What one turn meets outside. -/
structure RunEnv where
  preview : Bool
  /-- A save is due, and succeeds. -/
  due : Bool
  /-- A park slot is free. -/
  parkFree : Bool

structure PeerRun (κ : Type) (Z : Inflater) where
  args : RunArgs
  sec : Option (SecureIdentSession × κ)
  swarm : Swarm Z
  phase : RunPhase
  parked : Bool
  /-- A slot was taken back. -/
  revoked : Bool
  delivered : Nat

variable {κ : Type} {Z : Inflater}

/-- The writes of one packet, each through to its closed gap. -/
def commitMoves (due : Bool) (writes : List BlockWrite) : List Move :=
  writes.flatMap fun b =>
    if b.data = [] then [.detach 0]
    else [.detach 0, .write 0 .lock, .write 0 (.land b.data.length), .write 0 .sync, .close 0 due]

/-- True if the part-hash list is needed before anything can be verified. -/
def PartFile.needsHashset (pf : PartFile) : Bool :=
  (1 < dataPartCount pf.size || pf.size = PARTSIZE) && pf.partHashes.isEmpty

/-- Does the peer hold any part with bytes missing? -/
def PartFile.hasNeededPart (pf : PartFile) (status : FileStatus) : Bool :=
  pf.wantedParts.any status.hasPart

def RunEnv.flags (env : RunEnv) : Flags := ⟨false, env.preview⟩

namespace PeerRun

/-- What is asked in the first breath. -/
def openingAsks (args : RunArgs) (sec : Option (SecureIdentSession × κ)) : List Ask :=
  (if args.peerSupports then sec.toList.map fun s => .secIdent s.1.start else []) ++
    ([.filename, .setFile] ++ ((if args.askSources then [.sources] else []) ++
      if args.peerAich &&& 1 ≠ 0 then [.aichRoot] else []))

def opened (args : RunArgs) (sec : Option (SecureIdentSession × κ)) (store : PartStore)
    (file : Bytes) : PeerRun κ Z where
  args := args
  sec := sec
  swarm := .opened Z store file
  phase := .status
  parked := false
  revoked := false
  delivered := 0

def pf (c : PeerRun κ Z) : PartFile := c.swarm.pf

def session (c : PeerRun κ Z) : Option (PeerSession Z) := c.swarm.sessions[0]?

/-- What a turn comes to: the session behind it, and what it writes. -/
abbrev Turn (κ : Type) (Z : Inflater) := PeerRun κ Z × List Ask

/-- The session returns; its `HeldBlocks` is dropped. -/
def finish (c : PeerRun κ Z) (result : Except TransferError Nat) : PeerRun κ Z :=
  { c with phase := .returned result, swarm := (c.swarm.move (.leave 0)).getD c.swarm }

/-- A packet that nobody waits for: the secure-ident exchange goes on. -/
def handleAux (R : Rsa κ) (c : PeerRun κ Z) (pkt : Packet) : Turn κ Z :=
  if pkt.opcode ∈ [OP_SECIDENTSTATE, OP_PUBLICKEY, OP_SIGNATURE] then
    match c.sec with
    | none => (c, [])
    | some (session, id) =>
      match session.onPacket R id pkt.opcode pkt.payload with
      | .ok r => ({ c with sec := some (r.session, id) }, r.replies.map .secIdent)
      | .error _ => (c, [])
  else (c, [])

/-- The head of the block loop. -/
def takeNext (c : PeerRun κ Z) (env : RunEnv) : Option (Turn κ Z) := do
  let s ← c.session
  let blocks := (c.swarm.takeBlocks env.flags s.status STANDARD_BLOCKS_REQUEST).1
  if blocks = [] then return (c.finish (.ok c.delivered), [])
  else
    let w ← c.swarm.move (.ask 0 env.flags)
    return ({ c with swarm := w, phase := .blocks }, [.parts blocks])

def askSlot (c : PeerRun κ Z) : Turn κ Z := ({ c with phase := .slot }, [.startUpload])

/-- The status is in: is there anything here for us? -/
def onStatus (c : PeerRun κ Z) (status : FileStatus) : Option (Turn κ Z) := do
  let w ← c.swarm.move (.connect status)
  let c := { c with swarm := w }
  if c.pf.hasNeededPart status = false then return (c.finish (.ok 0), [])
  else if c.pf.needsHashset then return ({ c with phase := .hashset }, [.hashset])
  else return c.askSlot

def awaitStatus (R : Rsa κ) (c : PeerRun κ Z) (pkt : Packet) : Option (Turn κ Z) :=
  if pkt.opcode = OP_FILEREQANSNOFIL then some (c.finish (.error .noFile), [])
  else if pkt.opcode = OP_FILESTATUS then
    match parseFileStatus pkt.payload with
    | .ok status => c.onStatus status
    | .error _ => some (c.finish (.error .protocol), [])
  else some (c.handleAux R pkt)

def awaitHashset (R : Rsa κ) (c : PeerRun κ Z) (pkt : Packet) : Option (Turn κ Z) :=
  if pkt.opcode = OP_HASHSETANSWER then
    match parseHashsetAnswer pkt.payload with
    | .ok (_, hashes) =>
      (c.swarm.move (.setHashset hashes)).map fun w => askSlot { c with swarm := w }
    | .error _ => some (c.finish (.error .protocol), [])
  else some (c.handleAux R pkt)

/-- A queue ranking sends the session to another source, unless it waits or can be parked. -/
def awaitSlot (R : Rsa κ) (c : PeerRun κ Z) (env : RunEnv) (pkt : Packet) : Option (Turn κ Z) :=
  if pkt.opcode = OP_ACCEPTUPLOADREQ then c.takeNext env
  else if pkt.opcode = OP_QUEUERANKING ∧ c.args.bailOnQueue then
    if c.parked ∨ (c.args.mayPark ∧ env.parkFree) then some ({ c with parked := true }, [])
    else some (c.finish (.error .queued), [])
  else some (c.handleAux R pkt)

/-- Blocks in place of the closed ones. -/
def refill (c : PeerRun κ Z) (env : RunEnv) : Option (Turn κ Z) := do
  let s ← c.session
  match s.phase with
  | .toppingUp _ wanted =>
    let more := (c.swarm.takeBlocks env.flags s.status wanted).1
    let w ← c.swarm.move (.topUp 0 env.flags)
    return ({ c with swarm := w }, if more = [] then [] else [.parts more])
  | _ => return (c, [])

/-- A batch that is done leads back to the head of the loop. -/
def nextBatch (c : PeerRun κ Z) (env : RunEnv) : Option (Turn κ Z) := do
  let s ← c.session
  match s.phase with
  | .fetching rx _ =>
    if rx.isDone then
      let w ← c.swarm.move (.batchDone 0)
      takeNext { c with swarm := w } env
    else return (c, [])
  | _ => return (c, [])

/-- Block data: it is placed, written and committed, and the window is topped up. -/
def onData (c : PeerRun κ Z) (env : RunEnv) (pkt : Packet) : Option (Turn κ Z) := do
  let s ← c.session
  match s.phase with
  | .fetching rx _ =>
    match ← rx.accept pkt.opcode pkt.payload with
    | (.error _, _) => return (c.finish (.error .badBlock), [])
    | (.ok writes, _) =>
      let w ← c.swarm.moves
        (.receive 0 pkt.opcode pkt.payload :: (commitMoves env.due writes ++ [.settle 0]))
      let delivered := c.delivered + (writes.map fun b => b.data.length).sum
      let (c, asks) ← refill { c with swarm := w, delivered := delivered } env
      let (c, more) ← c.nextBatch env
      return (c, asks ++ more)
  | _ => none

/-- The slot is over: the session returns, or gives its blocks back and waits for another turn. -/
def onRevoked (c : PeerRun κ Z) : Option (Turn κ Z) :=
  let c := { c with revoked := true }
  if c.args.bailOnQueue ∧ c.parked = false then some (c.finish (.ok c.delivered), [])
  else (c.swarm.move (.revoked 0)).map fun w => ({ c with swarm := w, phase := .slot }, [])

def awaitBlocks (R : Rsa κ) (c : PeerRun κ Z) (env : RunEnv) (pkt : Packet) :
    Option (Turn κ Z) :=
  if pkt.opcode = OP_OUTOFPARTREQS then c.onRevoked
  else if pkt.opcode ∈ auxOpcodes then some (c.handleAux R pkt)
  else c.onData env pkt

/-- One packet is read. -/
def onPacket (R : Rsa κ) (c : PeerRun κ Z) (env : RunEnv) (pkt : Packet) : Option (Turn κ Z) :=
  match c.phase with
  | .status => c.awaitStatus R pkt
  | .hashset => c.awaitHashset R pkt
  | .slot => c.awaitSlot R env pkt
  | .blocks => c.awaitBlocks R env pkt
  | .returned _ => none

/-- The other end is gone, and nothing is left to read. -/
def onClosed (c : PeerRun κ Z) : Option (PeerRun κ Z) :=
  match c.phase with
  | .returned _ => none
  | _ => some (c.finish (.error .closed))

end PeerRun

/-! ## What is taken -/

/-- With all that is reserved outstanding, what a session takes from a complete source is new
    pieces, or, once every missing byte is asked for, pieces that are outstanding; and there is
    something to take as long as a byte is missing. -/
theorem takeBlocks_cases {w : Swarm Z} (hok : w.pf.Ok) {status : FileStatus}
    (hcomplete : status.complete = true) {opened : List Block}
    (hpiece : ∀ b ∈ opened, ∃ part, IsPiece w.pf part b) (hfew : opened.length ≤ 4)
    (hreserved : ∀ b, b ∈ w.reserved ↔ b ∈ opened) {max : Nat} (hmax : 0 < max) (preview : Bool) :
    let more := (w.takeBlocks ⟨false, preview⟩ status max).1
    (∀ b ∈ more, ∃ part, IsPiece w.pf part b) ∧ more.length ≤ max ∧
      (more.Pairwise fun a b => overlaps b a = false) ∧
      ((∀ b ∈ more, ∀ r ∈ opened, overlaps b r = false) ∨ ∀ b ∈ more, b ∈ opened) ∧
      (more = [] → w.pf.missing = 0) := by
  intro more
  have havail : ∀ part, status.hasPart part = true := fun part => by
    rw [FileStatus.hasPart, hcomplete, Bool.true_or]
  obtain ⟨rarity, hrarity⟩ : ∃ rarity : Nat → Nat, rarity = fun p => w.availability.getD p 0 :=
    ⟨_, rfl⟩
  have hfresh := nextBlocks_allocates hok status.hasPart w.reserved max rarity false preview
  have hrace := nextBlocks_allocates hok status.hasPart w.reserved max rarity true preview
  obtain ⟨fresh, hfreshdef⟩ : ∃ fresh, w.pf.nextBlocks status.hasPart w.reserved max rarity false
    preview = fresh := ⟨_, rfl⟩
  obtain ⟨race, hracedef⟩ : ∃ race, w.pf.nextBlocks status.hasPart w.reserved max rarity true
    preview = race := ⟨_, rfl⟩
  rw [hfreshdef] at hfresh
  rw [hracedef] at hrace
  have hmore : more = if fresh = [] ∧ 0 < w.pf.missing ∧ w.pf.missing ≤ ENDGAME_LIMIT then race
      else fresh := by
    show (w.takeBlocks ⟨false, preview⟩ status max).1 = _
    rw [Swarm.takeBlocks, if_neg Bool.false_ne_true]
    dsimp only
    rw [← hrarity, hfreshdef, hracedef]
    split_ifs <;> rfl
  have hserved : ∀ {x : Nat}, x ∈ cover w.pf.gaps →
      x / PARTSIZE ∈ served w.pf status.hasPart := fun hx =>
    ⟨(mem_partBytes_div (hok.cover_lt _ hx)).2, havail _⟩
  by_cases hnone : fresh = []
  · -- nothing is new: every piece is outstanding
    have hall : ∀ b part, IsPiece w.pf part b → b ∈ opened := by
      intro b part hb
      have hx := hb.missing le_rfl hb.nonempty
      have hpart := hb.part_eq le_rfl hb.nonempty
      obtain ⟨r, hr, hover⟩ := hfresh.exhaustive (by rw [hnone]; exact hmax) part
        (hpart ▸ hserved hx) b hb
      rw [if_neg Bool.false_ne_true, hnone, List.append_nil, hreserved] at hr
      obtain ⟨q, hq⟩ := hpiece r hr
      rwa [hb.eq_of_overlaps hok hq hover]
    have hlimit : w.pf.missing ≤ ENDGAME_LIMIT := by
      have hcover : cover w.pf.gaps ⊆ cover (opened.map Block.span) := by
        intro x hx
        obtain ⟨b, hb, hlo, hhi⟩ := exists_piece hx (mem_partBytes_div (hok.cover_lt x hx)).1
        exact ⟨b.span, List.mem_map_of_mem (hall b _ hb), hlo, hhi⟩
      have htotal : total (opened.map Block.span) ≤ opened.length * EMBLOCKSIZE := by
        rw [total, List.map_map]
        refine (List.sum_le_card_nsmul _ EMBLOCKSIZE fun n hn => ?_).trans_eq (by simp)
        obtain ⟨b, hb, rfl⟩ := List.mem_map.mp hn
        obtain ⟨part, hp⟩ := hpiece b hb
        exact hp.inCell.length_le
      have hsum := (total_le_of_cover hok.tidy.disjoint hcover).trans htotal
      rw [w.pf.missing_eq_total]
      exact hsum.trans (Nat.mul_le_mul_right _ hfew)
    by_cases hmissing : 0 < w.pf.missing
    · rw [if_pos ⟨hnone, hmissing, hlimit⟩] at hmore
      rw [hmore]
      refine ⟨fun b hb => ?_, hrace.length_le, hrace.apart, .inr fun b hb => ?_, fun hempty => ?_⟩
      · obtain ⟨part, -, hp⟩ := hrace.piece b hb
        exact ⟨part, hp⟩
      · obtain ⟨part, -, hp⟩ := hrace.piece b hb
        exact hall b part hp
      · obtain ⟨x, hx⟩ : ∃ x, x ∈ cover w.pf.gaps := by
          by_contra hno
          rw [← hok.card_missing, Finset.card_pos] at hmissing
          obtain ⟨x, hx⟩ := hmissing
          exact hno ⟨x, (Finset.mem_filter.mp hx).2⟩
        obtain ⟨b, hb, -⟩ := exists_piece hx (mem_partBytes_div (hok.cover_lt x hx)).1
        obtain ⟨r, hr, -⟩ := hrace.exhaustive (by rw [hempty]; exact hmax) _ (hserved hx) b hb
        rw [if_pos rfl, hempty] at hr
        exact absurd hr List.not_mem_nil
    · rw [if_neg fun hcond => hmissing hcond.2.1, hnone] at hmore
      rw [hmore]
      exact ⟨fun b hb => absurd hb List.not_mem_nil, Nat.zero_le _, List.Pairwise.nil,
        .inr fun b hb => absurd hb List.not_mem_nil, fun _ => Nat.eq_zero_of_not_pos hmissing⟩
  · rw [if_neg fun hcond => hnone hcond.1] at hmore
    rw [hmore]
    refine ⟨fun b hb => ?_, hfresh.length_le, hfresh.apart, .inl fun b hb r hr => ?_,
      fun hempty => absurd hempty hnone⟩
    · obtain ⟨part, -, hp⟩ := hfresh.piece b hb
      exact ⟨part, hp⟩
    · refine hfresh.free b hb r ?_
      rw [if_neg Bool.false_ne_true, hreserved]
      exact hr

end PadMule.Engine
