import PadMule.Engine.ServeSec
import PadMule.Engine.UploadGate
import PadMule.Lib.Recent
import PadMule.Proto.AichTree

/-
  `mule-engine/src/share.rs`: one connection of `serve_shared`.

  `onPacket` is the body of its loop from one packet to the next await on the gate; where the
  code goes on with `try_grant`, the rotation or the queue, the session is left in the phase
  that says so, and the gate's side of it is in `Engine.ServeShared`. A handler is in `Except`:
  an error is the session as `serve_shared` returns from it, over a failed write, a failed read,
  a packet it gives up on, or a plain `return Ok(())`.

  What the connection has sent and booked so far is its `log`. A reply stands for the packet its
  builder makes of the same arguments. Who is named in a source answer is kept beside the gate
  and comes from outside, as do the clock and the stored hashsets.
-/

namespace PadMule.Engine

open PadMule.Proto PadMule.Proto.Aich FileMap

def OP_ASKSHAREDFILES : UInt8 := 0x4A
def OP_SETREQFILEID : UInt8 := 0x4F
def OP_HASHSETREQUEST : UInt8 := 0x51
def OP_STARTUPLOADREQ : UInt8 := 0x54
def OP_REQUESTFILENAME : UInt8 := 0x58
def OP_ASKSHAREDDIRS : UInt8 := 0x5D
def OP_ASKSHAREDFILESDIR : UInt8 := 0x5E
def OP_REQUESTSOURCES : UInt8 := 0x81
def OP_REQUESTSOURCES2 : UInt8 := 0x83
def OP_MULTIPACKET : UInt8 := 0x92
def OP_AICHREQUEST : UInt8 := 0x9B
def OP_AICHFILEHASHREQ : UInt8 := 0x9E
def OP_MULTIPACKET_EXT : UInt8 := 0xA4

def SOURCE_EXCHANGE_VERSION : UInt8 := 4

/-- Ranges remembered so that a re-stated request is not sent again. -/
def DEDUP_DEPTH : Nat := 64

def SESSION_MAX_SECS : Nat := 3600
def SESSION_MAX_BYTES : Nat := 10 * 1024 * 1024

/-- Has a peer used up its slot? -/
def shouldKick (uploadSecs sessionBytes : Nat) (friendSlot : Bool) : Bool :=
  !friendSlot && (SESSION_MAX_SECS < uploadSecs || SESSION_MAX_BYTES < sessionBytes)

/-! ## Files -/

/-- A complete file we serve. -/
structure SharedFile where
  hash : Hash16
  size : UInt64
  name : Bytes
  partHashes : List Hash16
  path : String
  rating : UInt8
  comment : String
  aichRoot : Option Hash20
deriving DecidableEq

/-- What is on disk under a path. -/
abbrev Disk := String → Option Bytes

/-- `metadata(&f.path)` and `m.len() == f.size` -/
def SharedFile.onDisk (disk : Disk) (f : SharedFile) : Bool :=
  (disk f.path).any fun content => content.length = f.size.toNat

/-- A missing file and one that ends before `stop` are errors. -/
def readRange (disk : Disk) (path : String) (start stop : UInt64) : Option Bytes :=
  (disk path).bind fun content =>
    let buf := (content.drop start.toNat).take (stop.toNat - start.toNat)
    if buf.length = stop.toNat - start.toNat then some buf else none

def headHash (payload : Bytes) : Option Hash16 :=
  if h : 16 ≤ payload.length then some ⟨payload.take 16, by rw [List.length_take]; omega⟩ else none

/-- The file a payload names, as long as its bytes are on disk at the size we hashed. -/
def lookupShared (disk : Disk) (library : List SharedFile) (payload : Bytes) : Option SharedFile :=
  ((headHash payload).bind fun h => library.find? (·.hash = h)).filter (·.onDisk disk)

/-! ## Request scoring -/

def MIN_REQUESTTIME_SECS : Nat := 600
def BADCLIENTBAN : Nat := 4
def MAX_TRACKED_FILES : Nat := 64
def MAX_SCORED_REQUESTS : Nat := 200

structure RequestCounter where
  /-- File hash to the time it was last asked about and its score. -/
  files : Dir Hash16 (Nat × Nat)
  total : Nat
deriving DecidableEq

/-- Score a request, and say whether to answer it. The counts are u32 and saturate. -/
def RequestCounter.allow (c : RequestCounter) (hash : Hash16) (now : Nat) :
    Bool × RequestCounter :=
  let c := { c with total := min (c.total + 1) (2 ^ 32 - 1) }
  if MAX_SCORED_REQUESTS < c.total then (false, c)
  else
    match get c.files hash with
    | none =>
      if MAX_TRACKED_FILES ≤ c.files.length then (false, c)
      else (true, { c with files := write c.files hash (now, 0) })
    | some (last, score) =>
      let score := if now - last < MIN_REQUESTTIME_SECS then min (score + 1) (2 ^ 32 - 1)
        else score - 1
      (score < BADCLIENTBAN, { c with files := write c.files hash (now, score) })

/-! ## Requests -/

/-- The walk over a multipacket's sub-opcodes, `n` of them at most: is the AICH root asked for?
    The extended info of OP_REQUESTFILENAME has the shape of the version the sender announced. -/
def walkSubOpcodes (peerExtRequests : UInt8) : Nat → Bytes → Bool → Bool
  | 0, _, found => found
  | _, [], found => found
  | n + 1, op :: rest, found =>
    if op = OP_REQUESTFILENAME then
      if peerExtRequests = 0 then walkSubOpcodes peerExtRequests n rest found
      else
        match rest with
        | lo :: hi :: rest =>
          let bitfield := (lo.toNat + 256 * hi.toNat + 7) / 8
          let skip := bitfield + if 1 < peerExtRequests then 2 else 0
          if rest.length < skip then found
          else walkSubOpcodes peerExtRequests n (rest.drop skip) found
        | _ => found
    else if op = OP_SETREQFILEID ∨ op = OP_REQUESTSOURCES then
      walkSubOpcodes peerExtRequests n rest found
    else if op = OP_REQUESTSOURCES2 then
      if rest.length < 3 then found else walkSubOpcodes peerExtRequests n (rest.drop 3) found
    else if op = OP_AICHFILEHASHREQ then walkSubOpcodes peerExtRequests n rest true
    else found

/-- Every sub-opcode takes a byte at least, so the walk ends before its count does. -/
def multipacketWantsAich (payload : Bytes) (ext : Bool) (peerExtRequests : UInt8) : Bool :=
  let tail := payload.drop (16 + if ext then 8 else 0)
  walkSubOpcodes peerExtRequests tail.length tail false

def parseRequestSources2 (payload : Bytes) : Option (UInt8 × Hash16) :=
  match payload with
  | version :: _ :: _ :: rest => (headHash rest).map fun h => (version, h)
  | _ => none

def readAichRequest : Reader (Hash16 × UInt16 × Hash20) := do
  let hash ← readHash16
  let part ← readU16
  let root ← readDigest 20
  return (hash, part, root)

/-- Strict: bytes left over are an error. -/
def parseAichRequest (payload : Bytes) : Option (Hash16 × UInt16 × Hash20) :=
  match readAichRequest payload with
  | .ok (v, []) => some v
  | _ => none

/-! ## Replies -/

/-- A file as a browse lists it. -/
structure OfferedFile where
  hash : Hash16
  name : String
  size : UInt64
deriving DecidableEq

/-- A source as a source answer names it. -/
structure SxSource where
  ip : UInt32
  port : UInt16
  serverIp : UInt32
  serverPort : UInt16
  userHash : Option Hash16
  crypt : Option UInt8
deriving DecidableEq

/-- What is sent, by the builder of the packet. -/
inductive ServeReply where
  | sharedDirs
  | sharedFilesDir (asked : Bytes) (files : List OfferedFile)
  | sharedFiles (files : List OfferedFile)
  | sharedDenied
  | reqFilenameAnswer (hash : Hash16) (name : Bytes)
  | fileDesc (rating : UInt8) (comment : String)
  | fileStatusComplete (hash : Hash16)
  | fileReqAnsNoFil (hash : Hash16)
  | multipacketAnswer (hash : Hash16) (name : Bytes) (aichRoot : Option Hash20)
  | answerSources (hash : Hash16) (sources : List SxSource) (version : UInt8) (sx2 : Bool)
  | hashsetAnswer (hash : Hash16) (partHashes : List Hash16)
  | aichFileHashAns (hash : Hash16) (root : Hash20)
  | aichAnswer (hash : Hash16) (part : UInt16) (root : Hash20) (recovery : Bytes)
  | aichAnswerFailure (hash : Hash16)
  | acceptUpload
  | queueRanking (rank : UInt16)
  | outOfPartReqs
  | sendingPart (hash : Hash16) (start stop : UInt64) (data : Bytes)
  | secIdent (pkt : Packet)
deriving DecidableEq

/-- What a connection does: it sends a packet, books an upload against the peer's credit, fires
    the verified sink. -/
inductive ServeEffect where
  | sent (r : ServeReply)
  | uploaded (userhash : Hash16) (n : UInt64) (now : UInt32)
  | verified (key : Bytes)
deriving DecidableEq

/-! ## The session -/

/-- What `serve_shared` is called with. -/
structure ServeArgs where
  library : List SharedFile
  /-- Is there a gate? -/
  gated : Bool
  peerAcceptComment : UInt8
  credit : Option Hash16
  peerSx1 : UInt8
  peerAich : UInt8
  peerExtRequests : UInt8
  allowBrowse : Bool
deriving DecidableEq

inductive ServePhase where
  | ready
  | wanting -- about to `try_grant`
  | queueing -- about to `enqueue`
  | waiting (key : WaiterKey) -- in `granted()`
  | deciding -- the slot is up: is anybody waiting?
  | revoking -- OP_OUTOFPARTREQS is out, the slot about to be dropped
  | returning (waiter : Option WaiterKey)
  | over
deriving DecidableEq

abbrev SentRange := Hash16 × UInt64 × UInt64

structure Serving (κ : Type) where
  args : ServeArgs
  sec : Option (ServeSec κ)
  phase : ServePhase
  file : Option SharedFile
  permit : Bool
  slotBytes : Nat
  recentlySent : List SentRange
  requests : RequestCounter
  /-- How many more writes and reads go through. -/
  writes : Nat
  reads : Nat
  log : List ServeEffect
deriving DecidableEq

/-- What one packet meets outside: the clock, how long the slot has been held, the sources to
    name, the stored hashsets. -/
structure Surroundings where
  now : UInt32
  heldSecs : Nat
  sources : List SxSource
  hashsets : Hash20 → UInt64 → Option AichTree

abbrev Serve (κ : Type) := Except (Serving κ)

namespace Serving

variable {κ : Type}

def opened (args : ServeArgs) (sec : Option (ServeSec κ)) (writes reads : Nat) : Serving κ where
  args := args
  sec := sec
  phase := .ready
  file := none
  permit := false
  slotBytes := 0
  recentlySent := []
  requests := ⟨[], 0⟩
  writes := writes
  reads := reads
  log := []

/-- On the way out; a waiter is still to be dropped. -/
def quit (s : Serving κ) : Serving κ :=
  { s with phase := .returning (match s.phase with | .waiting key => some key | _ => none) }

def leave (s : Serving κ) : Serve κ (Serving κ) := .error s.quit

def note (s : Serving κ) (e : ServeEffect) : Serving κ := { s with log := s.log ++ [e] }

def send (s : Serving κ) (r : ServeReply) : Serve κ (Serving κ) :=
  if s.writes = 0 then s.leave else .ok { s with writes := s.writes - 1, log := s.log ++ [.sent r] }

def sendAll (s : Serving κ) (replies : List ServeReply) : Serve κ (Serving κ) := replies.foldlM send s

def latch (s : Serving κ) (f : SharedFile) : Serving κ := { s with file := some f }

/-! ### Metadata -/

def browsableLibrary (disk : Disk) (library : List SharedFile) : List OfferedFile :=
  (library.filter (·.onDisk disk)).map fun f =>
    ⟨f.hash, (String.fromUTF8? ⟨f.name.toArray⟩).getD "", f.size⟩

/-- The three browse requests; a refusal is an answer of its own. -/
def onBrowse (disk : Disk) (s : Serving κ) (pkt : Packet) : Serve κ (Serving κ) :=
  let offered := browsableLibrary disk s.args.library
  if pkt.opcode = OP_ASKSHAREDDIRS then
    s.send (if s.args.allowBrowse then .sharedDirs else .sharedDenied)
  else if pkt.opcode = OP_ASKSHAREDFILESDIR then
    let asked := match readStringU16 pkt.payload with
      | .ok (name, _) => name
      | .error _ => []
    s.send (if s.args.allowBrowse then .sharedFilesDir asked offered else .sharedDenied)
  else s.send (.sharedFiles (if s.args.allowBrowse then offered else []))

/-- An unknown hash draws silence. -/
def onRequestFilename (disk : Disk) (s : Serving κ) (payload : Bytes) : Serve κ (Serving κ) :=
  match lookupShared disk s.args.library payload with
  | none => .ok s
  | some f => do
    let s ← s.send (.reqFilenameAnswer f.hash f.name)
    let s ← if 1 ≤ s.args.peerAcceptComment ∧ (f.rating ≠ 0 ∨ f.comment ≠ "") then
        s.send (.fileDesc f.rating f.comment)
      else .ok s
    return s.latch f

/-- What a request for an unknown file draws here and in a multipacket. -/
def refuseFile (s : Serving κ) (payload : Bytes) : Serve κ (Serving κ) :=
  match headHash payload with
  | some h => s.send (.fileReqAnsNoFil h)
  | none => .ok s

def onSetReqFileId (disk : Disk) (s : Serving κ) (payload : Bytes) : Serve κ (Serving κ) :=
  match lookupShared disk s.args.library payload with
  | some f => do
    let s ← s.send (.fileStatusComplete f.hash)
    return s.latch f
  | none => s.refuseFile payload

def onMultipacket (disk : Disk) (s : Serving κ) (pkt : Packet) : Serve κ (Serving κ) :=
  match lookupShared disk s.args.library pkt.payload with
  | some f => do
    let asked := multipacketWantsAich pkt.payload (pkt.opcode == OP_MULTIPACKET_EXT)
      s.args.peerExtRequests
    let root := if s.args.peerAich &&& 1 ≠ 0 ∧ asked then f.aichRoot else none
    let s ← s.send (.multipacketAnswer f.hash f.name root)
    return s.latch f
  | none => s.refuseFile pkt.payload

/-- The version asked for, and the file. -/
def wantedSources (s : Serving κ) (pkt : Packet) : Option (UInt8 × Hash16) :=
  if pkt.opcode = OP_REQUESTSOURCES2 then
    (parseRequestSources2 pkt.payload).map fun p => (min p.1 SOURCE_EXCHANGE_VERSION, p.2)
  else (headHash pkt.payload).map fun h => (s.args.peerSx1, h)

/-- Silence when we know nobody, or no layout for the version. -/
def onRequestSources (env : Surroundings) (s : Serving κ) (pkt : Packet) : Serve κ (Serving κ) :=
  match s.wantedSources pkt with
  | some (version, hash) =>
    if s.args.gated ∧ 0 < version ∧ s.args.library.any (·.hash = hash) ∧ env.sources ≠ [] ∧
        version ≤ 4 then
      s.send (.answerSources hash env.sources version (pkt.opcode == OP_REQUESTSOURCES2))
    else .ok s
  | none => .ok s

def onHashsetRequest (s : Serving κ) : Serve κ (Serving κ) :=
  match s.file with
  | some f => s.send (.hashsetAnswer f.hash f.partHashes)
  | none => .ok s

def onAichFileHashReq (disk : Disk) (s : Serving κ) (payload : Bytes) : Serve κ (Serving κ) :=
  match (lookupShared disk s.args.library payload).bind SharedFile.aichRoot, headHash payload with
  | some root, some h =>
    if s.args.peerAich &&& 1 ≠ 0 then s.send (.aichFileHashAns h root) else .ok s
  | _, _ => .ok s

/-- The recovery data of one part, where we can serve it. -/
def recoveryFor (disk : Disk) (env : Surroundings) (s : Serving κ) (payload : Bytes) (part : UInt16)
    (wantRoot : Hash20) : Option (Hash20 × Bytes) := do
  let f ← lookupShared disk s.args.library payload
  let root ← f.aichRoot
  let partStart := part.toNat * PARTSIZE
  if root ≠ wantRoot ∨ f.size.toNat ≤ EMBLOCKSIZE ∨ f.size.toNat ≤ partStart ∨
      min PARTSIZE (f.size.toNat - partStart) ≤ EMBLOCKSIZE then none
  else
    let tree ← env.hashsets root f.size
    let recovery ← (tree.createPartRecoveryData partStart).1
    return (root, recovery)

/-- A malformed request costs the connection; any other miss draws the refusal. -/
def onAichRequest (disk : Disk) (env : Surroundings) (s : Serving κ) (payload : Bytes) :
    Serve κ (Serving κ) :=
  match parseAichRequest payload with
  | none => s.leave
  | some (h, part, wantRoot) =>
    match s.recoveryFor disk env payload part wantRoot with
    | some (root, recovery) => s.send (.aichAnswer h part root recovery)
    | none => s.send (.aichAnswerFailure h)

def onSecIdent (R : Rsa κ) (s : Serving κ) (pkt : Packet) : Serve κ (Serving κ) :=
  match s.sec with
  | none => .ok s
  | some sec => do
    let (replies, key, sec) := sec.drive R pkt.opcode pkt.payload
    let s ← sendAll { s with sec := some sec } (replies.map .secIdent)
    match key with
    | some key => return s.note (.verified key)
    | none => return s

/-! ### Slots and blocks -/

/-- Only a peer that has named a file is heard; with a gate and no slot the gate decides. -/
def onStartUploadReq (s : Serving κ) : Serve κ (Serving κ) :=
  if s.file = none then .ok s
  else if s.permit ∨ s.args.gated = false then s.send .acceptUpload
  else .ok { s with phase := .wanting }

/-- A range of the file, no wider than the window of three blocks. -/
def wantsBlock (f : SharedFile) (start stop : UInt64) : Prop :=
  start ≤ stop ∧ stop ≤ f.size ∧ stop.toNat - start.toNat ≤ 3 * EMBLOCKSIZE

instance (f : SharedFile) (start stop : UInt64) : Decidable (wantsBlock f start stop) :=
  inferInstanceAs (Decidable (_ ∧ _ ∧ _))

/-- The credit booked for a block that went out. -/
def bookUpload (s : Serving κ) (n : Nat) (now : UInt32) : Serving κ :=
  let s := { s with slotBytes := s.slotBytes + n }
  match s.args.credit with
  | some userhash => s.note (.uploaded userhash (.ofNat n) now)
  | none => s

def sendBlock (disk : Disk) (now : UInt32) (f : SharedFile) (s : Serving κ) (start stop : UInt64) :
    Serve κ (Serving κ) :=
  match readRange disk f.path start stop with
  | none => s.leave
  | some data =>
    if s.reads = 0 then s.leave
    else do
      let s := { s with
        reads := s.reads - 1
        recentlySent := Recent.push DEDUP_DEPTH s.recentlySent (f.hash, start, stop) }
      let s ← s.send (.sendingPart f.hash start stop data)
      return s.bookUpload data.length now

def serveBlock (disk : Disk) (now : UInt32) (f : SharedFile) (s : Serving κ)
    (block : UInt64 × UInt64) : Serve κ (Serving κ) :=
  if wantsBlock f block.1 block.2 ∧ (f.hash, block.1, block.2) ∉ s.recentlySent then
    s.sendBlock disk now f block.1 block.2
  else .ok s

/-- The hash in the request is not looked at: the latched file is served. -/
def onRequestParts (disk : Disk) (env : Surroundings) (s : Serving κ) (pkt : Packet) :
    Serve κ (Serving κ) :=
  match s.file with
  | none => .ok s
  | some f =>
    if s.args.gated ∧ s.permit = false then .ok s
    else
      match parseRequestParts pkt.payload (pkt.opcode == OP_REQUESTPARTS_I64) with
      | .error _ => s.leave
      | .ok (_, blocks) => do
        let s ← blocks.foldlM (serveBlock disk env.now f) s
        if s.args.gated ∧ s.permit ∧ shouldKick (min env.heldSecs (2 ^ 32 - 1)) s.slotBytes false
        then return { s with phase := .deciding }
        else return s

/-! ### One packet -/

/-- Metadata requests are scored, from a slot holder only the AICH ones. -/
def scored (s : Serving κ) (opcode : UInt8) : Bool :=
  opcode ∈ [OP_AICHFILEHASHREQ, OP_AICHREQUEST] ||
    (!s.permit && opcode ∈ [OP_REQUESTFILENAME, OP_SETREQFILEID, OP_MULTIPACKET, OP_MULTIPACKET_EXT,
      OP_HASHSETREQUEST, OP_REQUESTSOURCES, OP_REQUESTSOURCES2])

/-- Too many requests cost the connection. -/
def admitPacket (env : Surroundings) (s : Serving κ) (pkt : Packet) : Serve κ (Serving κ) :=
  if s.scored pkt.opcode then
    let asked := ((headHash pkt.payload).or (s.file.map SharedFile.hash)).getD (.fill 16 0)
    let (ok, requests) := s.requests.allow asked env.now.toNat
    if ok then .ok { s with requests := requests } else leave { s with requests := requests }
  else .ok s

def dispatch (R : Rsa κ) (disk : Disk) (env : Surroundings) (s : Serving κ) (pkt : Packet) :
    Serve κ (Serving κ) :=
  if pkt.opcode ∈ [OP_ASKSHAREDDIRS, OP_ASKSHAREDFILESDIR, OP_ASKSHAREDFILES] then
    s.onBrowse disk pkt
  else if pkt.opcode = OP_REQUESTFILENAME then s.onRequestFilename disk pkt.payload
  else if pkt.opcode = OP_SETREQFILEID then s.onSetReqFileId disk pkt.payload
  else if pkt.opcode ∈ [OP_MULTIPACKET, OP_MULTIPACKET_EXT] then s.onMultipacket disk pkt
  else if pkt.opcode ∈ [OP_REQUESTSOURCES, OP_REQUESTSOURCES2] then s.onRequestSources env pkt
  else if pkt.opcode = OP_HASHSETREQUEST then s.onHashsetRequest
  else if pkt.opcode = OP_AICHFILEHASHREQ then s.onAichFileHashReq disk pkt.payload
  else if pkt.opcode = OP_AICHREQUEST then s.onAichRequest disk env pkt.payload
  else if pkt.opcode = OP_STARTUPLOADREQ then s.onStartUploadReq
  else if pkt.opcode ∈ [OP_REQUESTPARTS, OP_REQUESTPARTS_I64] then s.onRequestParts disk env pkt
  else if pkt.opcode ∈ [OP_SECIDENTSTATE, OP_PUBLICKEY, OP_SIGNATURE] then s.onSecIdent R pkt
  else .ok s

def onPacket (R : Rsa κ) (disk : Disk) (env : Surroundings) (s : Serving κ) (pkt : Packet) :
    Serve κ (Serving κ) := do
  let s ← s.admitPacket env pkt
  s.dispatch R disk env pkt

/-- A slot granted to this session: OP_ACCEPTUPLOADREQ. -/
def takePermit (s : Serving κ) : Serve κ (Serving κ) :=
  send { s with permit := true, slotBytes := 0, phase := .ready } .acceptUpload

/-- The slot is taken back: OP_OUTOFPARTREQS. -/
def revoke (s : Serving κ) : Serve κ (Serving κ) := do
  let s ← s.send .outOfPartReqs
  return { s with phase := .revoking }

end Serving

end PadMule.Engine
